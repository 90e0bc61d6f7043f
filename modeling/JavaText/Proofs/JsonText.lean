import Mathlib.Data.List.Forall2
import Mathlib.Data.List.TakeWhile
import JavaText.Json.Parse
import JavaText.Json.Value
import JavaText.Proofs.Digits

/-!
# Written JSON is read back

The characters of a value spell its tokens (`Json.Spells`): a text or a sign ends by itself, a word or a
number at the next character that cannot go on with it, so the spelling of a value is stated for
whatever may follow. From the tokens the value is put together again, whatever is open around it.
Together, `Json.parse_render`.
-/

namespace JavaText.Json

/-- The values that trees and settings are written as: texts are Unicode, and numbers are whole and
below 2 ^ 32. -/
inductive Written : Json → Prop
  | null : Written .null
  | bool (b : Bool) : Written (.bool b)
  | nat {n : Nat} (hn : n < 4294967296) : Written (.nat n)
  | text (s : String) : Written (.text s)
  | array {js : List Json} (h : ∀ j ∈ js, Written j) : Written (.array js)
  | object {ms : List (Json.Text × Json)} (hname : ∀ m ∈ ms, m.1.isSome) (h : ∀ m ∈ ms, Written m.2) :
    Written (.object ms)

mutual

def toTokens : Json → List Token
  | .null => [.null]
  | .bool b => [.bool b]
  | .number n => [.number n]
  | .string s => [.string s]
  | .array js => .openBracket :: ([Token.comma].intercalate (itemTokens js) ++ [.closeBracket])
  | .object ms => .openBrace :: ([Token.comma].intercalate (memberTokens ms) ++ [.closeBrace])

def itemTokens : List Json → List (List Token)
  | [] => []
  | j :: js => toTokens j :: itemTokens js

def memberTokens : List (Json.Text × Json) → List (List Token)
  | [] => []
  | (name, j) :: ms => (.string name :: .colon :: toTokens j) :: memberTokens ms

end

section Spelling

open Begun

/-- What comes next does not go on with a word or a number. -/
def Ends (cs : List Char) : Prop := ∀ c ∈ cs.head?, extendsNumber c = false ∧ extendsWord c = false

/-- Where no token has begun, the characters give the tokens. -/
def Spells (cs : List Char) (tokens : List Token) : Prop :=
  ∀ ts rest, Ends rest → sweep .nothing ts (cs ++ rest) = sweep .nothing (tokens.reverse ++ ts) rest

theorem sweep_cons {b b' : Begun} {ts ts' : List Token} {c : Char} (h : b.step ts c = some (b', ts'))
    (cs : List Char) : b.sweep ts (c :: cs) = b'.sweep ts' cs := by
  rw [sweep, h]

/-- A character that is a token of its own. -/
structure IsSign (c : Char) (t : Token) : Prop where
  step : ∀ ts, Begun.nothing.step ts c = some (.nothing, t :: ts)
  ends : extendsNumber c = false ∧ extendsWord c = false

theorem isSign_openBracket : IsSign '[' .openBracket := ⟨fun _ => rfl, by decide⟩

theorem isSign_closeBracket : IsSign ']' .closeBracket := ⟨fun _ => rfl, by decide⟩

theorem isSign_openBrace : IsSign '\x7b' .openBrace := ⟨fun _ => rfl, by decide⟩

theorem isSign_closeBrace : IsSign '\x7d' .closeBrace := ⟨fun _ => rfl, by decide⟩

theorem isSign_colon : IsSign ':' .colon := ⟨fun _ => rfl, by decide⟩

theorem isSign_comma : IsSign ',' .comma := ⟨fun _ => rfl, by decide⟩

namespace Spells

theorem nil : Spells [] [] := fun _ _ _ => rfl

/-- Two spellings with a sign between them. -/
theorem sign {a b : List Char} {s t : List Token} {c : Char} {u : Token} (hc : IsSign c u)
    (ha : Spells a s) (hb : Spells b t) : Spells (a ++ c :: b) (s ++ u :: t) := by
  intro ts rest hrest
  have hnext : Ends (c :: b ++ rest) := by
    rintro d hd
    obtain rfl : c = d := by simpa using hd
    exact hc.ends
  rw [List.append_assoc, ha ts _ hnext, List.cons_append, sweep_cons (hc.step _), hb _ rest hrest]
  simp

theorem intercalate {css : List (List Char)} {tss : List (List Token)} (h : List.Forall₂ Spells css tss) :
    Spells ([','].intercalate css) ([Token.comma].intercalate tss) := by
  induction h with
  | nil => exact nil
  | @cons cs ts css tss hcs hcss ih =>
    cases hcss with
    | nil => simpa using hcs
    | cons =>
      rw [List.intercalate_cons_cons, List.intercalate_cons_cons, List.append_assoc,
        List.append_assoc]
      exact sign isSign_comma hcs ih

/-- A spelling between two signs. -/
theorem enclosed {cs : List Char} {ts : List Token} {c d : Char} {t u : Token} (hc : IsSign c t)
    (hd : IsSign d u) (h : Spells cs ts) : Spells (c :: (cs ++ [d])) (t :: (ts ++ [u])) :=
  sign hc nil (sign hd h nil)

end Spells

/-- A control character by its number. -/
theorem sweep_control {c : Char} (h : c.toNat < 0x20) (acc : List Char) (ts : List Token)
    (rest : List Char) :
    sweep (.string { chars := acc }) ts (['\\', 'u', '0', '0'] ++ hexPair c.toNat ++ rest) =
      sweep (.string { chars := c :: acc }) ts rest := by
  have hhigh := Text.hexDigit?_digitChar (d := c.toNat / 16) (by omega)
  have hlow := Text.hexDigit?_digitChar (d := c.toNat % 16) (by omega)
  have hvalue : 16 * (c.toNat / 16) + c.toNat % 16 = c.toNat := by omega
  have hunit : Quoted.pushUnit { chars := acc } c.toNat = { chars := c :: acc } := by
    have hnot : Quoted.isHigh c.toNat = false ∧ Quoted.isLow c.toNat = false := by
      simp only [Quoted.isHigh, Quoted.isLow, Bool.and_eq_false_iff, decide_eq_false_iff_not]
      omega
    simp [Quoted.pushUnit, hnot, Char.ofNat_toNat]
  have hfirst : step (.unit { chars := acc } 1 0) ts (Nat.digitChar (c.toNat / 16)) =
      some (.unit { chars := acc } 0 (c.toNat / 16), ts) := by
    simp [step, hhigh]
  have hsecond : step (.unit { chars := acc } 0 (c.toNat / 16)) ts (Nat.digitChar (c.toNat % 16)) =
      some (.string { chars := c :: acc }, ts) := by
    simp only [step, hlow, Option.map_some, hvalue, hunit]
  show sweep (.unit { chars := acc } 1 0) ts (hexPair c.toNat ++ rest) = _
  rw [hexPair, List.cons_append, List.cons_append, List.nil_append, sweep_cons hfirst,
    sweep_cons hsecond]

theorem sweep_escapeChar (c : Char) (acc : List Char) (ts : List Token) (rest : List Char) :
    sweep (.string { chars := acc }) ts (escapeChar c ++ rest) =
      sweep (.string { chars := c :: acc }) ts rest := by
  by_cases hshort : c ∈ ['"', '\\', '\n', '\r', '\t', '\x08', '\x0c']
  · simp only [List.mem_cons, List.not_mem_nil, or_false] at hshort
    rcases hshort with rfl | rfl | rfl | rfl | rfl | rfl | rfl <;> rfl
  · simp only [List.mem_cons, List.not_mem_nil, or_false, not_or] at hshort
    obtain ⟨hquote, hback, hn, hr, ht, hb, hf⟩ := hshort
    by_cases hcontrol : c.toNat < 0x20
    · have hescape : escapeChar c = ['\\', 'u', '0', '0'] ++ hexPair c.toNat := by
        simp [escapeChar, hquote, hback, hn, hr, ht, hb, hf, hcontrol]
      rw [hescape]
      exact sweep_control hcontrol acc ts rest
    · have hescape : escapeChar c = [c] := by
        simp [escapeChar, hquote, hback, hn, hr, ht, hb, hf, hcontrol]
      rw [hescape]
      exact sweep_cons (by simp [step, hquote, hback, hcontrol, Quoted.push]) rest

theorem sweep_escaped (cs acc : List Char) (ts : List Token) (rest : List Char) :
    sweep (.string { chars := acc }) ts (cs.flatMap escapeChar ++ '"' :: rest) =
      sweep .nothing (.string (some (String.ofList (acc.reverse ++ cs))) :: ts) rest := by
  induction cs generalizing acc with
  | nil =>
    rw [List.flatMap_nil, List.nil_append, List.append_nil]
    rfl
  | cons c cs ih =>
    rw [List.flatMap_cons, List.append_assoc, sweep_escapeChar, ih, List.reverse_cons,
      List.append_assoc]
    rfl

theorem Spells.quoted (s : String) : Spells (quoted (some s)) [.string (some s)] := by
  intro ts rest _
  have hchars : Json.quoted (some s) ++ rest = '"' :: (s.toList.flatMap escapeChar ++ '"' :: rest) := by
    simp [Json.quoted]
  have hstart : Begun.nothing.step ts '"' = some (.string {}, ts) := rfl
  rw [hchars, sweep_cons hstart, sweep_escaped, List.reverse_nil, List.nil_append, String.ofList_toList]
  rfl

/-- A word or number ends where the next character does not belong to it. -/
theorem sweep_flush {b : Begun} (hb : (∃ cs, b = .word cs) ∨ ∃ cs, b = .number cs) (ts : List Token)
    {rest : List Char} (hrest : Ends rest) :
    b.sweep ts rest = (b.flush ts).bind fun ts => sweep .nothing ts rest := by
  cases rest with
  | nil =>
    rw [sweep]
    cases b.flush ts <;> rfl
  | cons c rest =>
    obtain ⟨hnumber, hword⟩ := hrest c rfl
    have hstep : b.step ts c = (b.flush ts).bind (start c) := by
      rcases hb with ⟨cs, rfl⟩ | ⟨cs, rfl⟩
      · simp [step, hword]
      · simp [step, hnumber]
    rw [sweep, hstep]
    cases b.flush ts <;> rfl

theorem spells_null : Spells "null".toList [.null] := by
  intro ts rest hrest
  show sweep (.word ['l', 'l', 'u', 'n']) ts rest = _
  rw [sweep_flush (.inl ⟨_, rfl⟩) ts hrest]
  rfl

theorem spells_true : Spells "true".toList [.bool true] := by
  intro ts rest hrest
  show sweep (.word ['e', 'u', 'r', 't']) ts rest = _
  rw [sweep_flush (.inl ⟨_, rfl⟩) ts hrest]
  rfl

theorem spells_false : Spells "false".toList [.bool false] := by
  intro ts rest hrest
  show sweep (.word ['e', 's', 'l', 'a', 'f']) ts rest = _
  rw [sweep_flush (.inl ⟨_, rfl⟩) ts hrest]
  rfl

theorem whole?_decimal (n : Nat) : whole? (decimal n) = some (n, []) := by
  have hall : ∀ c ∈ decimal n, isDigit c = true := fun c hc => isDigit_of_mem_decimal hc
  have hvalue := natOf_decimal n
  have htake := List.takeWhile_eq_self_iff.mpr hall
  have hdrop := List.dropWhile_eq_nil_iff.mpr hall
  simp only [whole?, htake, hdrop]
  split
  · next hnil => exact absurd hnil (by rw [decimal_eq]; exact Nat.toDigits_ne_nil)
  · next c cs hzero =>
    rw [decimal_eq] at hzero
    have hpos : ¬ 0 < n := fun h => head?_toDigits h (by rw [hzero]; rfl)
    obtain rfl : n = 0 := by omega
    simp at hzero
  · rw [hvalue]

theorem number?_decimal (n : Nat) : number? (decimal n) = some { whole := n } := by
  have hsign : ∀ cs, decimal n ≠ '-' :: cs := by
    intro cs h
    have hdigit := isDigit_of_mem_decimal (n := n) (c := '-') (by rw [h]; exact List.mem_cons_self ..)
    simp [isDigit] at hdigit
  unfold number?
  split
  next negative cs heq =>
    split at heq
    · next ds hds => exact absurd hds (hsign ds)
    · obtain ⟨rfl, rfl⟩ := Prod.mk.inj heq
      rw [whole?_decimal]
      rfl

theorem sweep_digits {ds : List Char} (h : ∀ c ∈ ds, isDigit c = true) (cs : List Char)
    (ts : List Token) (rest : List Char) :
    sweep (.number cs) ts (ds ++ rest) = sweep (.number (ds.reverse ++ cs)) ts rest := by
  induction ds generalizing cs with
  | nil => rfl
  | cons d ds ih =>
    have hd := h d (List.mem_cons_self ..)
    have hstep : Begun.step (.number cs) ts d = some (.number (d :: cs), ts) := by
      simp [step, extendsNumber, hd]
    rw [List.cons_append, sweep_cons hstep, ih fun c hc => h c (List.mem_cons_of_mem _ hc),
      List.reverse_cons, List.append_assoc]
    rfl

/-- A digit begins a number. -/
theorem step_digit {c : Char} (h : isDigit c = true) (ts : List Token) :
    Begun.nothing.step ts c = some (.number [c], ts) := by
  have hne : ∀ d, isDigit d = false → c ≠ d := fun d hd hcd => by simp [← hcd, h] at hd
  simp [step, start, h, hne ' ' (by decide), hne '\t' (by decide), hne '\n' (by decide),
    hne '\r' (by decide), hne '[' (by decide), hne ']' (by decide), hne '\x7b' (by decide),
    hne '\x7d' (by decide), hne ':' (by decide), hne ',' (by decide), hne '"' (by decide)]

theorem spells_decimal (n : Nat) : Spells (decimal n) [.number { whole := n }] := by
  intro ts rest hrest
  obtain ⟨c, cs, hcs⟩ := List.exists_cons_of_ne_nil (l := decimal n)
    (by rw [decimal_eq]; exact Nat.toDigits_ne_nil)
  have hall : ∀ d ∈ c :: cs, isDigit d = true := fun d hd => isDigit_of_mem_decimal (hcs ▸ hd)
  have hstart := step_digit (hall c (List.mem_cons_self ..)) ts
  have hflush : (Begun.number (cs.reverse ++ [c])).flush ts = some (.number { whole := n } :: ts) := by
    have hread : (cs.reverse ++ [c]).reverse = decimal n := by simp [hcs]
    rw [flush, hread, number?_decimal, Option.map_some]
  rw [hcs, List.cons_append, sweep_cons hstart,
    sweep_digits fun d hd => hall d (List.mem_cons_of_mem _ hd),
    sweep_flush (.inr ⟨_, rfl⟩) ts hrest, hflush]
  rfl

theorem itemChars_eq (js : List Json) : itemChars js = js.map chars := by
  induction js with
  | nil => rfl
  | cons j js ih => rw [itemChars, ih, List.map_cons]

theorem memberChars_eq (ms : List (Json.Text × Json)) :
    memberChars ms = ms.map fun m => quoted m.1 ++ ':' :: m.2.chars := by
  induction ms with
  | nil => rfl
  | cons m ms ih => rw [memberChars, ih, List.map_cons]

theorem itemTokens_eq (js : List Json) : itemTokens js = js.map toTokens := by
  induction js with
  | nil => rfl
  | cons j js ih => rw [itemTokens, ih, List.map_cons]

/-- The tokens of a member. -/
def memberToken (m : Json.Text × Json) : List Token := .string m.1 :: .colon :: m.2.toTokens

theorem memberTokens_eq (ms : List (Json.Text × Json)) : memberTokens ms = ms.map memberToken := by
  induction ms with
  | nil => rfl
  | cons m ms ih => rw [memberTokens, ih, List.map_cons]; rfl

/-- The characters of a written value spell its tokens. -/
theorem Written.spells {j : Json} (h : Written j) : Spells j.chars j.toTokens := by
  induction h with
  | null => exact spells_null
  | bool b =>
    cases b with
    | false => exact spells_false
    | true => exact spells_true
  | @nat n _ =>
    have hchars : Json.chars (.nat n) = decimal n := by
      simp [Json.nat, Json.chars, Number.chars, Number.exponentChars]
    rw [hchars]
    exact spells_decimal n
  | text s => exact .quoted s
  | @array js _ ih =>
    rw [chars, toTokens, itemChars_eq, itemTokens_eq]
    refine .enclosed isSign_openBracket isSign_closeBracket (.intercalate ?_)
    exact List.forall₂_map_left_iff.mpr (List.forall₂_map_right_iff.mpr (List.forall₂_same.mpr ih))
  | @object ms hname _ ih =>
    rw [chars, toTokens, memberChars_eq, memberTokens_eq]
    refine .enclosed isSign_openBrace isSign_closeBrace (.intercalate ?_)
    refine List.forall₂_map_left_iff.mpr (List.forall₂_map_right_iff.mpr (List.forall₂_same.mpr ?_))
    intro m hm
    obtain ⟨name, hm₁⟩ := Option.isSome_iff_exists.mp (hname m hm)
    rw [memberToken, hm₁]
    exact .sign isSign_colon (.quoted name) (ih m hm)

theorem Written.tokens_render {j : Json} (h : Written j) : tokens j.render = some j.toTokens := by
  have hsweep := h.spells [] [] (by simp [Ends])
  rw [List.append_nil, List.append_nil] at hsweep
  rw [tokens, render, String.toList_ofList, hsweep]
  simp [sweep, flush]

end Spelling

section Reading

open Reading

/-- Where a value is expected, the tokens give this one, whatever is open around it. -/
def Gives (tokens : List Token) (j : Json) : Prop :=
  ∀ empty stack ts, (tokens ++ ts).foldlM step (.value empty stack) = ts.foldlM step (.after j stack)

theorem foldlM_items {j : Json} {js : List Json} (h : ∀ k ∈ j :: js, Gives k.toTokens k)
    (acc : List Json) (empty : Bool) (stack : List Frame) (ts : List Token) :
    ([Token.comma].intercalate ((j :: js).map toTokens) ++ (Token.closeBracket :: ts)).foldlM step
        (.value empty (.array acc :: stack)) =
      ts.foldlM step (.after (.array (acc.reverse ++ j :: js)) stack) := by
  have hj := h j (List.mem_cons_self ..)
  induction js generalizing j acc empty with
  | nil =>
    rw [List.map_singleton, List.intercalate_singleton, hj]
    simp [step, close]
  | cons k js ih =>
    have htail : ∀ i ∈ k :: js, Gives i.toTokens i := fun i hi => h i (List.mem_cons_of_mem _ hi)
    have hrest := ih htail (j :: acc) false (htail k (List.mem_cons_self ..))
    rw [List.map_cons] at hrest ⊢
    rw [List.map_cons, List.intercalate_cons_cons, List.append_assoc, List.append_assoc, hj]
    simpa [step, close] using hrest

theorem foldlM_members {m : Json.Text × Json} {ms : List (Json.Text × Json)}
    (h : ∀ k ∈ m :: ms, Gives k.2.toTokens k.2) (acc : List (Json.Text × Json)) (empty : Bool)
    (stack : List Frame) (ts : List Token) :
    ([Token.comma].intercalate ((m :: ms).map memberToken) ++ (Token.closeBrace :: ts)).foldlM step
        (.key empty acc stack) =
      ts.foldlM step (.after (.object (acc.reverse ++ m :: ms)) stack) := by
  have hm : ∀ rest, (memberToken m ++ rest).foldlM step (.key empty acc stack) =
      rest.foldlM step (.after m.2 (.object acc m.1 :: stack)) :=
    fun rest => h m (List.mem_cons_self ..) false (.object acc m.1 :: stack) rest
  induction ms generalizing m acc empty with
  | nil =>
    rw [List.map_singleton, List.intercalate_singleton, hm]
    simp [step, close]
  | cons k ms ih =>
    have htail : ∀ i ∈ k :: ms, Gives i.2.toTokens i.2 := fun i hi => h i (List.mem_cons_of_mem _ hi)
    have hrest := ih htail (m :: acc) false
      fun rest => htail k (List.mem_cons_self ..) false (.object (m :: acc) k.1 :: stack) rest
    rw [List.map_cons] at hrest ⊢
    rw [List.map_cons, List.intercalate_cons_cons, List.append_assoc, List.append_assoc, hm]
    simpa [step, close] using hrest

theorem Written.gives {j : Json} (h : Written j) : Gives j.toTokens j := by
  induction h with
  | null | bool | nat | text => exact fun _ _ _ => rfl
  | @array js _ ih =>
    intro empty stack ts
    rw [toTokens, itemTokens_eq, List.cons_append, List.append_assoc]
    cases js with
    | nil => rfl
    | cons j js => exact foldlM_items ih [] true stack ts
  | @object ms _ _ ih =>
    intro empty stack ts
    rw [toTokens, memberTokens_eq, List.cons_append, List.append_assoc]
    cases ms with
    | nil => rfl
    | cons m ms => exact foldlM_members ih [] true stack ts

end Reading

/-- A written value is read back from its written form. -/
theorem Written.parse_render {j : Json} (h : Written j) : parse j.render = some j := by
  have hread := h.gives false [] []
  rw [List.append_nil] at hread
  rw [parse, h.tokens_render, Option.bind_some, ofTokens, hread]
  rfl

end JavaText.Json
