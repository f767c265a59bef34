import Mathlib

/-!
# Zero-padded numerals under the lexicographic order

A numeral is the list of its digits, most significant first, padded with zeros to a minimum width.
`padded_injective` holds at every width. Numerals of one length compare as the numbers they denote
(`compare_digits`), also after the digits are rendered as symbols in the same order and put between
a common prefix and a common suffix (`compare_rendered_of_length`). A numeral below `base ^ width`
has length exactly `width` (`length_padded`), so there the lexicographic order is the order of the
numbers, and past the width it is again between two powers of the base (`length_padded_of_le`).
-/

set_option autoImplicit false
set_option relaxedAutoImplicit false

namespace DailyChallenge.Library

/-! ### Lexicographic comparison -/

section Lexicographic

variable {α : Type*} [Ord α]

/-- A common prefix does not decide a lexicographic comparison. -/
theorem compare_append_left [Std.ReflOrd α] (shared first second : List α) :
    compare (shared ++ first) (shared ++ second) = compare first second := by
  induction shared with
  | nil => rfl
  | cons head rest ih =>
    have hhead : compare head head = .eq := Std.ReflCmp.compare_self
    rw [List.cons_append, List.cons_append, List.compare_cons_cons, ih, hhead]
    rfl

/-- A common suffix does not decide a lexicographic comparison of lists of one length. -/
theorem compare_append_right [Std.ReflOrd α] (shared : List α) :
    ∀ first second : List α, first.length = second.length →
      compare (first ++ shared) (second ++ shared) = compare first second
  | [], [], _ => by
    rw [List.nil_append, List.compare_nil_nil]
    exact Std.ReflCmp.compare_self
  | [], _ :: _, h => by simp at h
  | _ :: _, [], h => by simp at h
  | head :: first, head' :: second, h => by
    rw [List.cons_append, List.cons_append, List.compare_cons_cons, List.compare_cons_cons,
      compare_append_right shared first second (by simpa using h)]

/-- Rendering symbols without changing their order does not change the comparison of lists. -/
theorem compare_map {β : Type*} [Ord β] (render : α → β) :
    ∀ first second : List α,
      (∀ x ∈ first, ∀ y ∈ second, compare (render x) (render y) = compare x y) →
        compare (first.map render) (second.map render) = compare first second
  | [], [], _ => by
    rw [List.map_nil, List.compare_nil_nil, List.compare_nil_nil]
  | [], _ :: _, _ => by
    rw [List.map_nil, List.map_cons, List.compare_nil_cons, List.compare_nil_cons]
  | _ :: _, [], _ => by
    rw [List.map_nil, List.map_cons, List.compare_cons_nil, List.compare_cons_nil]
  | head :: first, head' :: second, h => by
    rw [List.map_cons, List.map_cons, List.compare_cons_cons, List.compare_cons_cons,
      h head List.mem_cons_self head' List.mem_cons_self,
      compare_map render first second fun x hx y hy ↦
        h x (List.mem_cons_of_mem _ hx) y (List.mem_cons_of_mem _ hy)]

end Lexicographic

/-! ### Numerals -/

/-- The number a list of digits denotes, most significant digit first. -/
def valueOf (base : ℕ) (digits : List ℕ) : ℕ := Nat.ofDigits base digits.reverse

/-- The digits of a number, most significant first; zero has the one digit `0`. -/
def numeral (base number : ℕ) : List ℕ :=
  if number = 0 then [0] else (Nat.digits base number).reverse

/-- The digits of a number, padded on the left with zeros to a minimum width. -/
def padded (base width number : ℕ) : List ℕ :=
  List.replicate (width - (numeral base number).length) 0 ++ numeral base number

theorem valueOf_cons (base digit : ℕ) (digits : List ℕ) :
    valueOf base (digit :: digits) = digit * base ^ digits.length + valueOf base digits := by
  simp only [valueOf, List.reverse_cons, Nat.ofDigits_append, Nat.ofDigits_singleton,
    List.length_reverse]
  ring

theorem valueOf_lt {base : ℕ} (hbase : 1 < base) {digits : List ℕ} (h : ∀ d ∈ digits, d < base) :
    valueOf base digits < base ^ digits.length := by
  have hbound := Nat.ofDigits_lt_base_pow_length (b := base) (l := digits.reverse) hbase
    fun d hd ↦ h d (List.mem_reverse.mp hd)
  rwa [List.length_reverse] at hbound

theorem valueOf_numeral (base number : ℕ) : valueOf base (numeral base number) = number := by
  unfold valueOf numeral
  split_ifs with hzero
  · simp [hzero]
  · rw [List.reverse_reverse, Nat.ofDigits_digits]

theorem valueOf_padded (base width number : ℕ) :
    valueOf base (padded base width number) = number := by
  have hzeros : ∀ count, valueOf base (List.replicate count 0 ++ numeral base number) = number := by
    intro count
    induction count with
    | zero => exact valueOf_numeral base number
    | succ count ih =>
      rw [List.replicate_succ, List.cons_append, valueOf_cons, ih, zero_mul, zero_add]
  exact hzeros _

/-- Different numbers have different padded numerals, at every width. -/
theorem padded_injective (base width : ℕ) : Function.Injective (padded base width) := by
  intro first second h
  rw [← valueOf_padded base width first, h, valueOf_padded]

theorem lt_of_mem_padded {base : ℕ} (hbase : 1 < base) {width number digit : ℕ}
    (h : digit ∈ padded base width number) : digit < base := by
  rcases List.mem_append.mp h with hzero | hdigit
  · rw [(List.mem_replicate.mp hzero).2]
    omega
  · unfold numeral at hdigit
    split_ifs at hdigit with hzero
    · rw [List.mem_singleton.mp hdigit]
      omega
    · exact Nat.digits_lt_base hbase (List.mem_reverse.mp hdigit)

/-- A number below `base ^ width` needs no more than `width` digits, so its numeral has exactly the
padded width. -/
theorem length_padded {base : ℕ} (hbase : 1 < base) {width number : ℕ} (hwidth : 0 < width)
    (h : number < base ^ width) : (padded base width number).length = width := by
  have hshort : (numeral base number).length ≤ width := by
    unfold numeral
    split_ifs with hzero
    · exact hwidth
    · rw [List.length_reverse]
      exact (Nat.digits_length_le_iff hbase number).mpr h
  rw [padded, List.length_append, List.length_replicate]
  omega

/-- A number past the padded width has as many digits as its order of magnitude says. -/
theorem length_padded_of_le {base : ℕ} (hbase : 1 < base) {width size number : ℕ}
    (hwidth : width ≤ size) (hlow : base ^ size ≤ number) (hhigh : number < base ^ (size + 1)) :
    (padded base width number).length = size + 1 := by
  have hpos : 0 < number := (Nat.pow_pos (Nat.zero_lt_of_lt hbase)).trans_le hlow
  have hlength : (numeral base number).length = size + 1 := by
    rw [numeral, if_neg hpos.ne', List.length_reverse]
    apply le_antisymm
    · exact (Nat.digits_length_le_iff hbase number).mpr hhigh
    · exact (Nat.lt_digits_length_iff hbase number).mpr hlow
  rw [padded, List.length_append, List.length_replicate, hlength]
  omega

/-- Digit lists of one length compare as the numbers they denote. -/
theorem compare_digits {base : ℕ} (hbase : 1 < base) :
    ∀ first second : List ℕ, first.length = second.length → (∀ d ∈ first, d < base) →
      (∀ d ∈ second, d < base) →
        compare first second = compare (valueOf base first) (valueOf base second)
  | [], [], _, _, _ => rfl
  | [], _ :: _, h, _, _ => by simp at h
  | _ :: _, [], h, _, _ => by simp at h
  | digit :: first, digit' :: second, h, hfirst, hsecond => by
    have hlength : first.length = second.length := by simpa using h
    have hrest := compare_digits hbase first second hlength
      (fun d hd ↦ hfirst d (List.mem_cons_of_mem _ hd))
      (fun d hd ↦ hsecond d (List.mem_cons_of_mem _ hd))
    have hlow := valueOf_lt hbase fun d hd ↦ hfirst d (List.mem_cons_of_mem _ hd)
    have hlow' := valueOf_lt hbase fun d hd ↦ hsecond d (List.mem_cons_of_mem _ hd)
    rw [← hlength] at hlow'
    rw [List.compare_cons_cons, valueOf_cons, valueOf_cons, ← hlength, hrest]
    rcases Nat.lt_trichotomy digit digit' with hlt | heq | hgt
    · have hstep : (digit + 1) * base ^ first.length ≤ digit' * base ^ first.length :=
        Nat.mul_le_mul_right _ hlt
      rw [add_mul, one_mul] at hstep
      have hvalue : digit * base ^ first.length + valueOf base first <
          digit' * base ^ first.length + valueOf base second := by omega
      rw [Nat.compare_eq_lt.mpr hlt, Nat.compare_eq_lt.mpr hvalue]
      rfl
    · subst heq
      simp [Nat.compare_eq_ite_lt]
    · have hstep : (digit' + 1) * base ^ first.length ≤ digit * base ^ first.length :=
        Nat.mul_le_mul_right _ hgt
      rw [add_mul, one_mul] at hstep
      have hvalue : digit' * base ^ first.length + valueOf base second <
          digit * base ^ first.length + valueOf base first := by omega
      rw [Nat.compare_eq_gt.mpr hgt, Nat.compare_eq_gt.mpr hvalue]
      rfl

/-- Rendering by symbols in digit order keeps padded numerals apart, at every width. -/
theorem rendered_injective {α : Type*} [Ord α] [Std.ReflOrd α] {base : ℕ} (hbase : 1 < base)
    (render : ℕ → α) (hrender : ∀ d < base, ∀ e < base, compare (render d) (render e) = compare d e)
    (width : ℕ) : Function.Injective fun number ↦ (padded base width number).map render := by
  intro first second h
  have hcompare := compare_map render (padded base width first) (padded base width second)
    fun x hx y hy ↦ hrender x (lt_of_mem_padded hbase hx) y (lt_of_mem_padded hbase hy)
  have hequal : compare ((padded base width first).map render)
      ((padded base width second).map render) = .eq := by
    rw [show (padded base width first).map render = (padded base width second).map render from h]
    exact Std.ReflCmp.compare_self
  rw [hcompare] at hequal
  exact padded_injective base width (Std.LawfulEqOrd.eq_of_compare hequal)

/-- Padded numerals of one length, rendered by symbols in digit order and put between a common
prefix and a common suffix, compare as the numbers. -/
theorem compare_rendered_of_length {α : Type*} [Ord α] [Std.ReflOrd α] {base : ℕ} (hbase : 1 < base)
    (render : ℕ → α) (hrender : ∀ d < base, ∀ e < base, compare (render d) (render e) = compare d e)
    (before after : List α) {width first second : ℕ}
    (hlength : (padded base width first).length = (padded base width second).length) :
    compare (before ++ (padded base width first).map render ++ after)
        (before ++ (padded base width second).map render ++ after) = compare first second := by
  rw [compare_append_right after _ _ (by simp [hlength]), compare_append_left,
    compare_map render _ _ fun x hx y hy ↦
      hrender x (lt_of_mem_padded hbase hx) y (lt_of_mem_padded hbase hy),
    compare_digits hbase _ _ hlength (fun _ ↦ lt_of_mem_padded hbase)
      (fun _ ↦ lt_of_mem_padded hbase), valueOf_padded, valueOf_padded]

/-- Numbers that fit the width have numerals of one length. -/
theorem compare_rendered {α : Type*} [Ord α] [Std.ReflOrd α] {base : ℕ} (hbase : 1 < base)
    (render : ℕ → α) (hrender : ∀ d < base, ∀ e < base, compare (render d) (render e) = compare d e)
    (before after : List α) {width : ℕ} (hwidth : 0 < width) {first second : ℕ}
    (hfirst : first < base ^ width) (hsecond : second < base ^ width) :
    compare (before ++ (padded base width first).map render ++ after)
        (before ++ (padded base width second).map render ++ after) = compare first second := by
  apply compare_rendered_of_length hbase render hrender
  rw [length_padded hbase hwidth hfirst, length_padded hbase hwidth hsecond]

end DailyChallenge.Library
