import Mathlib.Data.List.Forall2
import Mathlib.Data.Option.Basic
import JavaText.Layout.Basic

/-!
# Relations between layouts

Whatever a rule of layout does, it puts texts, line breaks and the layouts of children one after the
other, goes one level deeper only right after a line break, and offers children of a few kinds to the
decorator. A relation that respects these steps is a `Doc.Congruence`; this module carries one through
the ways of putting layouts together and of setting a child.

A property of layouts is the relation that looks at its first argument only.
-/

namespace JavaText

/-- The kinds of node that rules offer to the decorator. -/
def Kind.isDecorated : Kind → Bool
  | .simpleName | .classType | .annotationExpr | .parameter => true
  | _ => false

/-- A relation between layouts that the steps of every rule keep; `D` is what is known, beyond that
relation, about the layouts of two nodes as a whole. -/
structure Doc.Congruence (D : Layout → Layout → Prop) (R : List Doc → List Doc → Prop) : Prop where
  nil : R [] []
  append {a a' b b' : List Doc} (ha : R a a') (hb : R b b') : R (a ++ b) (a' ++ b')
  write (t : String) : R [.write t] [.write t]
  newline : R [.newline] [.newline]
  deeper {a a' : List Doc} (ha : R a a') : R [.newline, .indented a] [.newline, .indented a']
  decorated {l l' : Layout} (role : Role) (hk : l.kind.isDecorated = true) (hl : D l l')
    (hbody : R l.body l'.body) : R (l.decorated role) (l'.decorated role)

/-- Layouts of nodes of one kind, admitted in the place, related as a whole and part by part. -/
structure Layout.Rel (D : Layout → Layout → Prop) (R : List Doc → List Doc → Prop) (p : Place)
    (l l' : Layout) : Prop where
  admitted : p.admits l.kind = true
  kind : l.kind = l'.kind
  whole : D l l'
  before : R l.before l'.before
  body : R l.body l'.body
  element : R l.element l'.element
  brackets : R l.brackets l'.brackets
  bare : Option.Rel R l.bare l'.bare

variable {D : Layout → Layout → Prop} {R : List Doc → List Doc → Prop} {X : Type} {S : X → X → Prop}

theorem Doc.rel_ite {a a' b b' : List Doc} (c : Prop) [Decidable c] (ha : R a a') (hb : R b b') :
    R (if c then a else b) (if c then a' else b') := by
  split
  · exact ha
  · exact hb

namespace Doc.Congruence

variable (h : Congruence D R)
include h

theorem text {t t' : String} (ht : t = t') : R [.write t] [.write t'] := by
  subst ht
  exact h.write t

theorem line (t : String) : R (Doc.line t) (Doc.line t) := h.append (h.write t) h.newline

/-- A text that ends its line, and a part one level deeper on the lines after it. -/
theorem lineDeeper {a a' b b' : List Doc} (t : String) (ha : R a a') (hb : R b b') :
    R (a ++ Doc.line t ++ [.indented b]) (a' ++ Doc.line t ++ [.indented b']) := by
  have hline := h.append (h.append ha (h.write t)) (h.deeper hb)
  simpa [Doc.line] using hline

theorem flatMap {xs ys : List X} {f g : X → List Doc} (hxs : List.Forall₂ S xs ys)
    (hf : ∀ x y, S x y → R (f x) (g y)) : R (xs.flatMap f) (ys.flatMap g) := by
  induction hxs with
  | nil => exact h.nil
  | cons hx _ ih => exact h.append (hf _ _ hx) ih

theorem intercalate {sep sep' : List Doc} (hsep : R sep sep') {ds ds' : List (List Doc)}
    (hds : List.Forall₂ R ds ds') : R (sep.intercalate ds) (sep'.intercalate ds') := by
  induction hds with
  | nil => exact h.nil
  | @cons a a' as as' ha hds ih =>
    cases hds with
    | nil => simpa [List.intercalate] using ha
    | @cons b b' bs bs' hb hds =>
      have hstep := h.append ha (h.append hsep ih)
      simpa [List.intercalate] using hstep

theorem separated (sep : String) {xs ys : List X} {f g : X → List Doc} (hxs : List.Forall₂ S xs ys)
    (hf : ∀ x y, S x y → R (f x) (g y)) :
    R (Doc.separated sep (xs.map f)) (Doc.separated sep (ys.map g)) :=
  h.intercalate (h.write sep)
    (List.forall₂_map_left_iff.mpr (List.forall₂_map_right_iff.mpr (hxs.imp hf)))

/-- Something that is there only for a non-empty list. -/
theorem unlessEmpty {a a' : List Doc} {xs ys : List X} (hxs : List.Forall₂ S xs ys) (ha : R a a') :
    R (if xs.isEmpty then [] else a) (if ys.isEmpty then [] else a') := by
  cases hxs with
  | nil => exact h.nil
  | cons _ _ => exact ha

theorem getD {x y : Option X} {f g : X → List Doc} (hx : Option.Rel S x y)
    (hf : ∀ x y, S x y → R (f x) (g y)) : R ((x.map f).getD []) ((y.map g).getD []) := by
  cases hx with
  | none => exact h.nil
  | some hx => exact hf _ _ hx

end Doc.Congruence

namespace Layout

open Doc (Congruence)

variable {l l' : Layout} {ls ls' : List Layout} {p : Place}

theorem Rel.led (h : Congruence D R) (hl : Rel D R p l l') : R l.led l'.led :=
  h.append hl.before hl.body

/-- A child in a place for one of the decorated kinds. -/
theorem Rel.decorated {k : Kind} (h : Congruence D R) (hl : Rel D R (.only k) l l')
    (hk : k.isDecorated = true) (role : Role) : R (l.decorated role) (l'.decorated role) := by
  have hkind : k = l.kind := eq_of_beq hl.admitted
  exact h.decorated role (hkind ▸ hk) hl.whole hl.body

/-- A child that is decorated if it is of one kind. -/
theorem Rel.decorated_if {k : Kind} (h : Congruence D R) (hl : Rel D R p l l')
    (hk : k.isDecorated = true) (role : Role) :
    R (if l.kind = k then l.decorated role else l.body)
      (if l'.kind = k then l'.decorated role else l'.body) := by
  rw [← hl.kind]
  split
  · next hkind => exact h.decorated role (hkind ▸ hk) hl.whole hl.body
  · exact hl.body

theorem Rel.type (h : Congruence D R) (hl : Rel D R p l l') : R l.type l'.type :=
  hl.decorated_if h rfl _

theorem Rel.expr (h : Congruence D R) (hl : Rel D R p l l') : R l.expr l'.expr :=
  hl.decorated_if h rfl _

theorem Rel.alone (h : Congruence D R) (hl : Rel D R p l l') : R l.alone l'.alone := by
  unfold Layout.alone
  rw [hl.kind]
  exact Doc.rel_ite _ (hl.led h) hl.body

theorem typeReferences_rel (h : Congruence D R)
    (hls : List.Forall₂ (Rel D R (.only .classType)) ls ls') (sep : String) :
    R (typeReferences sep ls) (typeReferences sep ls') :=
  h.separated sep hls fun _ _ hl => hl.decorated h rfl _

theorem parameters_rel (h : Congruence D R)
    (hls : List.Forall₂ (Rel D R (.only .parameter)) ls ls') :
    R (parameters ls) (parameters ls') :=
  h.separated _ hls fun _ _ hl => hl.decorated h rfl _

theorem annotationLines_rel (h : Congruence D R)
    (hls : List.Forall₂ (Rel D R (.only .annotationExpr)) ls ls') :
    R (annotationLines ls) (annotationLines ls') :=
  h.flatMap hls fun _ _ hl => h.append (hl.decorated h rfl _) h.newline

theorem annotations_rel (h : Congruence D R)
    (hls : List.Forall₂ (Rel D R (.only .annotationExpr)) ls ls') (gap : Bool) :
    R (annotations gap ls) (annotations gap ls') :=
  h.unlessEmpty hls (h.append (Doc.rel_ite _ (h.write _) h.nil)
    (h.flatMap hls fun _ _ hl => h.append (hl.decorated h rfl _) (h.write _)))

section
variable (h : Congruence D R) (hls : List.Forall₂ (Rel D R p) ls ls')
include h hls

theorem arguments_rel : R (arguments ls) (arguments ls') :=
  h.append (h.append (h.write _) (h.separated _ hls fun _ _ hl => hl.expr h)) (h.write _)

theorem members_rel : R (members ls) (members ls') :=
  h.flatMap hls fun _ _ hl => h.append (h.append h.newline (hl.led h)) h.newline

theorem statements_rel : R (statements ls) (statements ls') :=
  h.flatMap hls fun _ _ hl => h.append (hl.led h) h.newline

theorem declarators_rel : R (declarators ls) (declarators ls') := by
  refine h.append (h.append ?_ (h.write _)) (h.separated _ hls fun _ _ hl => hl.body)
  cases hls with
  | nil => exact h.nil
  | cons hl _ => exact hl.element

end

theorem typeArguments_rel (h : Congruence D R) {ls ls' : Option (List Layout)}
    (hls : Option.Rel (List.Forall₂ (Rel D R p)) ls ls') : R (typeArguments ls) (typeArguments ls') := by
  cases hls with
  | none => exact h.nil
  | some hls =>
    cases hls with
    | nil => exact h.nil
    | cons hl hls =>
      exact h.append (h.append (h.write _) (h.separated _ (.cons hl hls) fun _ _ hl => hl.type h))
        (h.write _)

theorem modifiers_rel (h : Congruence D R) (m : Modifiers) : R (modifiers m) (modifiers m) :=
  Doc.rel_ite _ h.nil (h.append (h.write _) (h.write _))

end Layout

end JavaText
