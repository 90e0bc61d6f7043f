import Mathlib.Data.Nat.Digits.Defs
import JavaText.Proofs.JsonRecord

/-!
# The spellings of a set of modifiers

A spelling is a list of parts, each the name of a flag or a word in hexadecimal, with blanks around the
parts and bars between them. Parts may come in any order, repeat one another, overlap, and have bits
without a name.

Every spelling is read as the union of its parts (`Modifiers.read?_spell`). The bars cut it into the
padded parts because neither a part nor a blank holds a bar, and trimming leaves the parts because they
hold no blanks; what the parts then add up to is read off bit by bit.
-/

namespace JavaText

namespace Text

/-- A hexadecimal digit as it is spelled, with a small or a capital letter. -/
structure HexDigit where
  value : Fin 16
  capital : Bool

namespace HexDigit

def char (d : HexDigit) : Char :=
  if d.capital then (Nat.digitChar d.value).toUpper else Nat.digitChar d.value

/-- The number that digits spell, the most significant first. -/
def number (ds : List HexDigit) : Nat := Nat.ofDigits 16 (ds.reverse.map fun d => d.value.val)

theorem number_cons (d : HexDigit) (ds : List HexDigit) :
    number (d :: ds) = 16 ^ ds.length * d.value + number ds := by
  rw [number, List.reverse_cons, List.map_append, Nat.ofDigits_append, List.length_map,
    List.length_reverse, List.map_singleton, Nat.ofDigits_singleton, Nat.add_comm]
  rfl

/-- Read as a digit, and neither a sign nor a bar nor a blank. -/
theorem char_spec (d : HexDigit) :
    hexDigit? d.char = some d.value.val ∧ d.char ≠ '+' ∧ d.char ≠ '|' ∧ isBlank d.char = false := by
  have hall : ∀ (v : Fin 16) (b : Bool), hexDigit? (char ⟨v, b⟩) = some v.val ∧ char ⟨v, b⟩ ≠ '+' ∧
      char ⟨v, b⟩ ≠ '|' ∧ isBlank (char ⟨v, b⟩) = false := by decide
  exact hall d.value d.capital

theorem hexValue?_chars (ds : List HexDigit) (n : Nat) :
    hexValue? n (ds.map char) = some (16 ^ ds.length * n + number ds) := by
  induction ds generalizing n with
  | nil => simp [hexValue?, number]
  | cons d ds ih =>
    have hshift : 16 ^ ds.length * (16 * n + d.value) + number ds =
        16 ^ (ds.length + 1) * n + (16 ^ ds.length * d.value + number ds) := by ring
    rw [List.map_cons, hexValue?, d.char_spec.1, Option.bind_some, ih, hshift, number_cons,
      List.length_cons]

end HexDigit

theorem bar_not_mem_blanks {cs : List Char} (h : ∀ c ∈ cs, isBlank c = true) : '|' ∉ cs := by
  intro hbar
  have hblank := h '|' hbar
  revert hblank
  decide

end Text

namespace Modifiers

open Text (HexDigit Tight isBlank)

/-- A part of a spelling. A word may have any number of digits as long as it fits in sixteen bits. -/
inductive Part where
  | name (f : Flag) (h : f ∈ flags)
  | word (digits : List HexDigit) (hne : digits ≠ []) (hfits : HexDigit.number digits < 2 ^ 16)

namespace Part

def chars : Part → List Char
  | .name f _ => f.name.toList
  | .word digits .. => '0' :: 'x' :: digits.map HexDigit.char

def bits : Part → BitVec 16
  | .name f _ => 1#16 <<< f.bit
  | .word digits .. => BitVec.ofNat 16 (HexDigit.number digits)

theorem tight_chars (p : Part) : Tight p.chars := by
  cases p with
  | name f h => exact tight_name h
  | word digits hne hfits =>
    refine tight_word fun c hc => ?_
    obtain ⟨d, -, rfl⟩ := List.mem_map.mp hc
    exact d.char_spec.2.2

theorem part?_chars (p : Part) : part? p.chars = some ⟨p.bits⟩ := by
  cases p with
  | name f h => rw [chars, part?_name h, ofFlag, BitVec.twoPow_eq, bits]
  | word digits hne hfits =>
    have hvalue := HexDigit.hexValue?_chars digits 0
    rw [Nat.mul_zero, Nat.zero_add] at hvalue
    have hplus : '+' ∉ digits.map HexDigit.char := by
      intro hmem
      obtain ⟨d, -, hd⟩ := List.mem_map.mp hmem
      exact d.char_spec.2.1 hd
    have hword := hexWord?_of_value (by simpa using hne) hplus hvalue hfits
    rw [chars, part?, hword]
    rfl

end Part

/-- A part with the blanks around it. -/
structure Padded where
  part : Part
  before : List Char
  after : List Char
  before_blank : ∀ c ∈ before, isBlank c = true
  after_blank : ∀ c ∈ after, isBlank c = true

namespace Padded

def chars (p : Padded) : List Char := p.before ++ p.part.chars ++ p.after

theorem trim_chars (p : Padded) : Text.trim p.chars = p.part.chars :=
  Text.trim_tight p.part.tight_chars p.before_blank p.after_blank

theorem bar_not_mem_chars (p : Padded) : '|' ∉ p.chars := by
  rw [chars, List.mem_append, List.mem_append, not_or, not_or]
  exact ⟨⟨Text.bar_not_mem_blanks p.before_blank, p.part.tight_chars.bar⟩,
    Text.bar_not_mem_blanks p.after_blank⟩

end Padded

/-- The text of a spelling. -/
def spell (ps : List Padded) : String := String.ofList (['|'].intercalate (ps.map Padded.chars))

theorem splitOn_spell {ps : List Padded} (hne : ps ≠ []) :
    (spell ps).toList.splitOn '|' = ps.map Padded.chars := by
  rw [spell, String.toList_ofList]
  refine List.splitOn_intercalate '|' ?_ (by simpa using hne)
  intro cs hcs
  obtain ⟨p, -, rfl⟩ := List.mem_map.mp hcs
  exact p.bar_not_mem_chars

theorem read?_spell (ps : List Padded) :
    read? (spell ps) = some ((ps.map fun p => ⟨p.part.bits⟩).foldl union empty) := by
  cases ps with
  | nil => rfl
  | cons p ps =>
    have hcut : ((spell (p :: ps)).toList.splitOn '|').map Text.trim =
        (p :: ps).map fun q => q.part.chars := by
      rw [splitOn_spell (List.cons_ne_nil p ps), List.map_map]
      exact List.map_congr_left fun q _ => q.trim_chars
    refine read?_of_parts hcut ?_ ?_
    · have hpart : ∃ c ∈ p.chars, isBlank c = false := by
        obtain ⟨c, hc, hblank⟩ := p.part.tight_chars.exists_mem
        exact ⟨c, List.mem_append_left _ (List.mem_append_right _ hc), hblank⟩
      rw [spell, String.toList_ofList, List.map_cons]
      exact Text.trim_intercalate_ne_nil hpart _ _
    · refine List.forall₂_map_left_iff.mpr (List.forall₂_map_right_iff.mpr ?_)
      exact List.forall₂_same.mpr fun q _ => q.part.part?_chars

example : read? " 0xF801|\tFINAL |PUBLIC|FINAL" = some ⟨0xF821⟩ := by decide

theorem nodup_keywords (m : Modifiers) : m.keywords.Nodup := by
  have hflags : (flags.map Flag.keyword).Nodup := by decide
  exact hflags.sublist (List.filter_sublist.map _)

/-- However a set is spelled, it loads as the union of the parts; its keywords are those of the flags
in the union, each once and in the order of the flags; and written anew it loads as the same set. -/
theorem load_spelled (ps : List Padded) :
    ∃ m : Modifiers,
      Json.load (fun j => Scalar.read .top j .modifiers) (Json.text (spell ps)).render = .ok m ∧
      (∀ mode, Scalar.read mode (.text (spell ps)) .modifiers = .ok m) ∧
      (∀ i, m.bits.getLsbD i = ps.any fun p => p.part.bits.getLsbD i) ∧
      m.keywords =
        (flags.filter fun f => ps.any fun p => p.part.bits.getLsbD f.bit).map Flag.keyword ∧
      m.keywords.Nodup ∧
      Json.load (fun j => Scalar.read .top j .modifiers) (Scalar.toJson .modifiers m).render =
        .ok m := by
  obtain ⟨m, hm⟩ : ∃ m, m = (ps.map fun p => ⟨p.part.bits⟩).foldl union empty := ⟨_, rfl⟩
  have hread : ∀ mode, Scalar.read mode (.text (spell ps)) .modifiers = .ok m := by
    intro mode
    simp only [Scalar.read, Json.text, Json.readText, Except.bind, read?_spell, hm]
  have hbits : ∀ i, m.bits.getLsbD i = ps.any fun p => p.part.bits.getLsbD i := by
    intro i
    rw [hm, getLsbD_foldl_union, List.any_map]
    simp [empty, Function.comp_def]
  refine ⟨m, ?_, hread, hbits, ?_, m.nodup_keywords, ?_⟩
  · rw [Json.load, (Json.Written.text _).parse_render]
    show Except.mapError _ (Scalar.read .top (.text (spell ps)) .modifiers) = _
    rw [hread]
    rfl
  · rw [keywords]
    refine congrArg _ (List.filter_congr fun f _ => ?_)
    exact hbits f.bit
  · exact (Scalar.readsBack .modifiers).load (Nat.zero_le _)

end Modifiers

end JavaText
