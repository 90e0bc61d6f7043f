import JavaText.Json.Tree
import JavaText.Proofs.JsonText

/-!
# What is written can be taken in

Offsets are small enough to be held as doubles, so a written value of which the nesting is within the
limit fits (`Json.Written.fits`); and in a value that fits, so does whatever stands directly in it, one
level further (`Json.fits_object`, `Json.fits_array`).
-/

namespace JavaText

namespace Number

theorem le_foldl (word : Nat) (ds : List Nat) : word ≤ ds.foldl (fun n d => 10 * n + d) word := by
  induction ds generalizing word with
  | nil => exact Nat.le_refl _
  | cons d ds ih =>
    have hstep := ih (10 * word + d)
    rw [List.foldl_cons]
    omega

/-- Digits that make a number of one word are all taken. -/
theorem takeWhole_eq (word : Nat) (ds : List Nat)
    (h : ds.foldl (fun n d => 10 * n + d) word < UInt64.size) :
    takeWhole word ds = (ds.foldl (fun n d => 10 * n + d) word, 0) := by
  induction ds generalizing word with
  | nil => rfl
  | cons d ds ih =>
    rw [List.foldl_cons] at h ⊢
    have htakes : takes word d = true := by
      have hle := le_foldl (10 * word + d) ds
      simp only [takes, decide_eq_true_eq]
      omega
    rw [takeWhole, if_pos htakes, ih _ h]

theorem foldl_wholeDigits (n : Number) :
    n.wholeDigits.foldl (fun n d => 10 * n + d) 0 = n.whole := by
  rw [wholeDigits, List.foldl_map]
  exact Nat.ofDigitChars_toDigits (by decide) (by decide)

theorem fitsDouble_nat {n : Nat} (h : n < 4294967296) : fitsDouble { whole := n } = true := by
  have hword : takeWhole 0 (wholeDigits { whole := n }) = (n, 0) := by
    have hdigits := foldl_wholeDigits { whole := n }
    have hsize : (4294967296 : Nat) < UInt64.size := by decide
    rw [takeWhole_eq _ _ (by rw [hdigits]; exact Nat.lt_trans h hsize), hdigits]
  have hsignificand : significand { whole := n } = n := by
    rw [significand, hword]
    rfl
  have hscale : scale { whole := n } = 0 := by
    rw [scale, hword]
    rfl
  have hunit : ∀ m : Nat, m < 4294967296 → Double.unit m = 1 := by
    intro m hm
    have hlog : m.log2 ≤ 52 := by
      rcases Nat.eq_zero_or_pos m with rfl | hpos
      · decide
      · have hlt := (Nat.log2_lt (Nat.ne_of_gt hpos) (k := 32)).mpr hm
        omega
    rw [Double.unit, Nat.sub_eq_zero_of_le hlog, Nat.pow_eq, Nat.pow_zero]
  have hproduct : Double.holdsProduct (Double.nearest n) (Double.nearest (Nat.pow 10 0)) = true := by
    have hlimit : (4294967296 : Nat) ≤ Double.limit := by decide +kernel
    rw [Double.nearest_of_unit_eq_one (hunit n h), Double.nearest_of_unit_eq_one (hunit _ (by decide))]
    rw [Nat.pow_eq, Nat.pow_zero, Double.holdsProduct, Nat.mul_one]
    exact decide_eq_true (Nat.lt_of_lt_of_le h hlimit)
  have hsmall : decide ((0 : Int) ≤ maxScale) = true := rfl
  rw [fitsDouble, hsignificand, hscale, Int.toNat_zero, hsmall, hproduct, Bool.and_self,
    Bool.or_true]

end Number

namespace Json

theorem isPlainItems_eq (js : List Json) : isPlainItems js = js.all isPlain := by
  induction js with
  | nil => rfl
  | cons j js ih => rw [isPlainItems, ih, List.all_cons]

theorem isPlainMembers_eq (ms : List (Json.Text × Json)) :
    isPlainMembers ms = ms.all fun m => m.1.isSome && m.2.isPlain := by
  induction ms with
  | nil => rfl
  | cons m ms ih => rw [isPlainMembers, ih, List.all_cons]

theorem Written.isPlain {j : Json} (h : Written j) : j.isPlain = true := by
  induction h with
  | null | bool | text => rfl
  | nat hn => exact Number.fitsDouble_nat hn
  | array _ ih =>
    rw [Json.isPlain, isPlainItems_eq, List.all_eq_true]
    exact ih
  | object hname _ ih =>
    rw [Json.isPlain, isPlainMembers_eq, List.all_eq_true]
    intro m hm
    rw [hname m hm, ih m hm]
    rfl

theorem fits_direct_iff {j : Json} {left : Nat} :
    j.fits (.direct left) = true ↔ j.depth ≤ left ∧ j.isPlain = true := by
  rw [fits, Bool.and_eq_true, decide_eq_true_iff]

theorem Written.fits {j : Json} (h : Written j) {left : Nat} (hdepth : j.depth ≤ left) :
    j.fits (.direct left) = true :=
  fits_direct_iff.mpr ⟨hdepth, h.isPlain⟩

theorem depthItems_le_iff {js : List Json} {n : Nat} :
    depthItems js ≤ n ↔ ∀ j ∈ js, j.depth ≤ n := by
  induction js with
  | nil => exact ⟨fun _ _ hj => absurd hj List.not_mem_nil, fun _ => Nat.zero_le n⟩
  | cons j js ih => rw [depthItems, Nat.max_le, ih, List.forall_mem_cons]

theorem depthMembers_le_iff {ms : List (Json.Text × Json)} {n : Nat} :
    depthMembers ms ≤ n ↔ ∀ m ∈ ms, m.2.depth ≤ n := by
  induction ms with
  | nil => exact ⟨fun _ _ hm => absurd hm List.not_mem_nil, fun _ => Nat.zero_le n⟩
  | cons m ms ih => rw [depthMembers, Nat.max_le, ih, List.forall_mem_cons]

/-- What stands in an object that fits, fits one level further. -/
theorem fits_object {m : Mode} {ms : List (Json.Text × Json)} (h : (Json.object ms).fits m = true) :
    ∃ m', m.enter = .ok m' ∧ ∀ p ∈ ms, p.2.fits m' = true := by
  cases m with
  | buffered => exact ⟨.buffered, rfl, fun _ _ => rfl⟩
  | direct left =>
    rw [fits_direct_iff, depth, isPlain, isPlainMembers_eq, List.all_eq_true] at h
    obtain ⟨hdepth, hplain⟩ := h
    obtain ⟨left, rfl⟩ := Nat.exists_eq_add_of_le' (Nat.le_of_add_left_le hdepth)
    have hmembers := depthMembers_le_iff.mp (Nat.le_of_add_le_add_right hdepth)
    refine ⟨.direct left, rfl, fun p hp => fits_direct_iff.mpr ⟨hmembers p hp, ?_⟩⟩
    have hp := hplain p hp
    rw [Bool.and_eq_true] at hp
    exact hp.2

/-- What stands in an array that fits, fits one level further. -/
theorem fits_array {m : Mode} {js : List Json} (h : (Json.array js).fits m = true) :
    ∃ m', m.enter = .ok m' ∧ ∀ j ∈ js, j.fits m' = true := by
  cases m with
  | buffered => exact ⟨.buffered, rfl, fun _ _ => rfl⟩
  | direct left =>
    rw [fits_direct_iff, depth, isPlain, isPlainItems_eq, List.all_eq_true] at h
    obtain ⟨hdepth, hplain⟩ := h
    obtain ⟨left, rfl⟩ := Nat.exists_eq_add_of_le' (Nat.le_of_add_left_le hdepth)
    have hitems := depthItems_le_iff.mp (Nat.le_of_add_le_add_right hdepth)
    exact ⟨.direct left, rfl, fun j hj => fits_direct_iff.mpr ⟨hitems j hj, hplain j hj⟩⟩

end Json

end JavaText
