import SecLsmManager.Protocol.Prot
import Mathlib.Data.Nat.Digits.Defs

/-!
# The numeric identifiers of the daemon

`isid` of `main-sec-lsm-managerd.c`, which reads the users and the groups of the command line. Its
loop does not look behind the digits that make `INT_MAX`, and an empty text has no digit that it
would refuse (`isid_exact_iff`).
-/

namespace SecLsmManager

def LLONG_MAX : Int := 9223372036854775807

/-- A value that is computed as a `long long int`, if it is one. -/
def longLong (value : Int) : Option Int :=
  if -LLONG_MAX - 1 ≤ value ∧ value ≤ LLONG_MAX then some value else none

/-- The loop of `isid` and what follows it, with the text that is left; `none` if a computation
overflows. -/
def isidLoop : List UInt8 → Int → Option Int
  | [], value => some (if value ≤ INT_MAX then value else -1)
  | c :: text, value =>
    if value < INT_MAX then
      if c < 48 ∨ c > 57 ∨ value ≥ INT_MAX then some (-1)
      else
        (longLong (10 * value)).bind fun tens =>
          (longLong (tens + ((c.toNat : Int) - 48))).bind fun value => isidLoop text value
    else some (if value ≤ INT_MAX then value else -1)

def isid (text : CStr) : Option Int := isidLoop text.bytes 0

/-! ## Decimal numbers -/

/-- The text is made of decimal digits. -/
def Decimal (text : List UInt8) : Prop := ∀ c ∈ text, 48 ≤ c ∧ c ≤ 57

instance (text : List UInt8) : Decidable (Decimal text) :=
  List.decidableBAll (fun c => 48 ≤ c ∧ c ≤ 57) text

/-- The digit of a character. -/
def digit (c : UInt8) : Nat := c.toNat - 48

/-- The number that the digits of a text make. -/
def decimal (text : List UInt8) : Nat := Nat.ofDigits 10 (text.reverse.map digit)

/-- The number `n` is written in the text, as a decimal number. -/
def Writes (text : CStr) (n : Nat) : Prop :=
  text.bytes ≠ [] ∧ Decimal text.bytes ∧ decimal text.bytes = n

/-- The text is read as the number up to `INT_MAX` that it writes, or refused if it writes none. -/
def ReadsIdentifier (text : CStr) : Prop :=
  ∃ rc, isid text = some rc ∧ (∀ n : Nat, n ≤ INT_MAX → (rc = n ↔ Writes text n)) ∧
    ((∀ n : Nat, n ≤ INT_MAX → ¬ Writes text n) → rc = -1)

/-- The text goes on behind digits that make `INT_MAX`. -/
def GoesOn (text : List UInt8) : Prop :=
  ∃ pre c post, text = pre ++ c :: post ∧ Decimal pre ∧ decimal pre = INT_MAX

/-! ## The loop -/

/-- The number that the digits make behind those of the number `v`. -/
def decimalFrom (v : Nat) (text : List UInt8) : Nat := text.foldl (fun v c => 10 * v + digit c) v

@[simp] theorem decimalFrom_nil (v : Nat) : decimalFrom v [] = v := rfl

@[simp] theorem decimalFrom_cons (v : Nat) (c : UInt8) (text : List UInt8) :
    decimalFrom v (c :: text) = decimalFrom (10 * v + digit c) text := by
  rw [decimalFrom, List.foldl_cons, decimalFrom]

/-- From no digit the number is that of the text. -/
theorem decimalFrom_zero (text : List UInt8) : decimalFrom 0 text = decimal text := by
  induction text using List.reverseRecOn with
  | nil => rfl
  | append_singleton text c ih =>
    rw [decimalFrom, List.foldl_concat, ← decimalFrom, ih, decimal, decimal, List.reverse_concat,
      List.map_cons, Nat.ofDigits_cons, Nat.add_comm]

/-- More digits make no smaller number. -/
theorem le_decimalFrom (v : Nat) (text : List UInt8) : v ≤ decimalFrom v text := by
  induction text generalizing v with
  | nil => exact Nat.le_refl v
  | cons c text ih =>
    have hle := ih (10 * v + digit c)
    rw [decimalFrom_cons]
    omega

/-- And a greater one, behind a digit that is not zero. -/
theorem lt_decimalFrom {v : Nat} (hv : 0 < v) {text : List UInt8} (h : text ≠ []) :
    v < decimalFrom v text := by
  obtain ⟨c, text, rfl⟩ := List.exists_cons_of_ne_nil h
  have hle := le_decimalFrom (10 * v + digit c) text
  rw [decimalFrom_cons]
  omega

/-- Behind the digits of `v`, the text goes on when `INT_MAX` is made. -/
def GoesOnFrom (v : Nat) (text : List UInt8) : Prop :=
  ∃ pre c post, text = pre ++ c :: post ∧ Decimal pre ∧ decimalFrom v pre = INT_MAX

/-- One digit more. -/
theorem goesOnFrom_cons {v : Nat} (hv : v < INT_MAX) {c : UInt8} {text : List UInt8} :
    GoesOnFrom v (c :: text) ↔ (48 ≤ c ∧ c ≤ 57) ∧ GoesOnFrom (10 * v + digit c) text := by
  constructor
  · rintro ⟨pre, d, post, heq, hpre, hmax⟩
    cases pre with
    | nil => exact absurd hmax hv.ne
    | cons b pre =>
      obtain ⟨rfl, rfl⟩ := List.cons.inj heq
      obtain ⟨hb, hpre⟩ := List.forall_mem_cons.1 hpre
      exact ⟨hb, pre, d, post, rfl, hpre, hmax⟩
  · rintro ⟨hc, pre, d, post, rfl, hpre, hmax⟩
    exact ⟨c :: pre, d, post, rfl, List.forall_mem_cons.2 ⟨hc, hpre⟩, hmax⟩

/-- A text that goes on makes a greater number. -/
theorem GoesOnFrom.lt {v : Nat} {text : List UInt8} (h : GoesOnFrom v text) :
    INT_MAX < decimalFrom v text := by
  obtain ⟨pre, c, post, rfl, -, hmax⟩ := h
  rw [decimalFrom, List.foldl_append, ← decimalFrom, ← decimalFrom, hmax]
  exact lt_decimalFrom (by decide) (List.cons_ne_nil c post)

/-- The turn on a digit, which does not overflow. -/
theorem isidLoop_digit {v : Nat} (hv : v < INT_MAX) {c : UInt8} (hc : 48 ≤ c ∧ c ≤ 57)
    (text : List UInt8) :
    isidLoop (c :: text) v = isidLoop text ((10 * v + digit c : Nat) : Int) := by
  have hlt : (v : Int) < INT_MAX := Int.ofNat_lt.2 hv
  have hdigit : 48 ≤ c.toNat ∧ c.toNat ≤ 57 := hc
  have htest : ¬ (c < 48 ∨ c > 57 ∨ (v : Int) ≥ INT_MAX) := by
    rw [not_or, not_or, UInt8.not_lt, gt_iff_lt, UInt8.not_lt]
    exact ⟨hc.1, hc.2, not_le.2 hlt⟩
  have hvalue : 10 * (v : Int) + ((c.toNat : Int) - 48) = ((10 * v + digit c : Nat) : Int) := by
    rw [digit]
    omega
  have hfits : ∀ n : Nat, n ≤ 10 * INT_MAX → longLong (n : Int) = some (n : Int) := by
    intro n hn
    rw [INT_MAX] at hn
    refine if_pos ⟨?_, ?_⟩
    · rw [LLONG_MAX]
      omega
    · rw [LLONG_MAX]
      omega
  have htens : longLong (10 * (v : Int)) = some (10 * (v : Int)) := by
    have hten := hfits (10 * v) (by omega)
    rwa [Nat.cast_mul] at hten
  rw [isidLoop, if_pos hlt, if_neg htest, htens, Option.bind_some, hvalue, hfits _ (by
    rw [digit]
    omega), Option.bind_some]

/-- How the loop ends. -/
inductive IsidEnds (v : Nat) (text : List UInt8) : Int → Prop
  | number : Decimal text → decimalFrom v text ≤ INT_MAX → IsidEnds v text (decimalFrom v text)
  | goesOn : GoesOnFrom v text → IsidEnds v text INT_MAX
  | refused : ¬ (Decimal text ∧ decimalFrom v text ≤ INT_MAX) → ¬ GoesOnFrom v text →
      IsidEnds v text (-1)

/-- The loop ends without an overflow. -/
theorem isidLoop_ends (text : List UInt8) (v : Nat) :
    ∃ rc, isidLoop text v = some rc ∧ IsidEnds v text rc := by
  induction text generalizing v with
  | nil =>
    have hnot : ¬ GoesOnFrom v [] := by
      rintro ⟨pre, c, post, heq, -⟩
      simp at heq
    by_cases hle : v ≤ INT_MAX
    · refine ⟨v, ?_, .number (List.forall_mem_nil _) hle⟩
      rw [isidLoop, if_pos (Int.ofNat_le.2 hle)]
    · refine ⟨-1, ?_, .refused (fun h => hle h.2) hnot⟩
      rw [isidLoop, if_neg fun h => hle (Int.ofNat_le.1 h)]
  | cons c text ih =>
    obtain hlt | rfl | hgt := Nat.lt_trichotomy v INT_MAX
    · by_cases hc : 48 ≤ c ∧ c ≤ 57
      · obtain ⟨rc, hrc, hends⟩ := ih (10 * v + digit c)
        refine ⟨rc, (isidLoop_digit hlt hc text).trans hrc, ?_⟩
        cases hends with
        | number hdec hle => exact .number (List.forall_mem_cons.2 ⟨hc, hdec⟩) hle
        | goesOn h => exact .goesOn ((goesOnFrom_cons hlt).2 ⟨hc, h⟩)
        | refused hnot hgo =>
          refine .refused (fun h => hnot ⟨(List.forall_mem_cons.1 h.1).2, h.2⟩) fun h => ?_
          exact hgo ((goesOnFrom_cons hlt).1 h).2
      · have htest : c < 48 ∨ c > 57 ∨ (v : Int) ≥ INT_MAX := by
          rw [not_and_or, UInt8.not_le, UInt8.not_le] at hc
          exact hc.imp id .inl
        refine ⟨-1, ?_, .refused (fun h => hc (List.forall_mem_cons.1 h.1).1) fun h => ?_⟩
        · rw [isidLoop, if_pos (Int.ofNat_lt.2 hlt), if_pos htest]
        · exact hc ((goesOnFrom_cons hlt).1 h).1
    · -- the loop stops at `INT_MAX`, in front of `c`
      refine ⟨INT_MAX, ?_, .goesOn ⟨[], c, text, rfl, List.forall_mem_nil _, rfl⟩⟩
      rw [isidLoop, if_neg (lt_irrefl _), if_pos (le_refl _)]
    · have hgt' : ¬ (v : Int) ≤ INT_MAX := fun h => absurd (Int.ofNat_le.1 h) (not_le.2 hgt)
      refine ⟨-1, ?_, .refused (fun h => ?_) ?_⟩
      · rw [isidLoop, if_neg fun h => hgt' h.le, if_neg hgt']
      · exact absurd (hgt.trans_le (le_decimalFrom v _)) (not_lt.2 h.2)
      · rintro ⟨pre, d, post, -, -, hmax⟩
        exact absurd (hgt.trans_le (le_decimalFrom v pre)) (not_lt.2 hmax.le)

/-! ## Main result -/

/-- **What `isid` reads.** It computes without an overflow, and it reads a text right exactly when
the text is not empty and does not go on behind digits that make `INT_MAX`. -/
theorem isid_exact_iff (text : CStr) :
    (isid text).isSome ∧ (ReadsIdentifier text ↔ text.bytes ≠ [] ∧ ¬ GoesOn text.bytes) := by
  obtain ⟨rc, hrc, hends⟩ := isidLoop_ends text.bytes 0
  have hisid : isid text = some rc := hrc
  have hgoes : GoesOn text.bytes ↔ GoesOnFrom 0 text.bytes := by
    unfold GoesOn GoesOnFrom
    simp only [decimalFrom_zero]
  rw [hgoes, hisid]
  refine ⟨rfl, ?_⟩
  constructor
  · rintro ⟨rc', hrc', hreads, -⟩
    cases hisid.symm.trans hrc'
    refine ⟨fun hnil => ?_, fun hgo => ?_⟩
    · -- the value of no digit is zero
      rw [isid, hnil] at hisid
      cases hisid
      exact ((hreads 0 (Nat.zero_le _)).1 rfl).1 hnil
    · -- the number that is written, if there is one, is greater
      have hgreater := hgo.lt
      cases hends with
      | number hdec hle => exact absurd hgreater (not_lt.2 hle)
      | goesOn =>
        obtain ⟨-, -, hvalue⟩ := (hreads INT_MAX (Nat.le_refl _)).1 rfl
        rw [decimalFrom_zero, hvalue] at hgreater
        exact absurd hgreater (lt_irrefl _)
      | refused _ hnot => exact hnot hgo
  · rintro ⟨hne, hnot⟩
    refine ⟨rc, hisid, ?_⟩
    cases hends with
    | number hdec hle =>
      rw [decimalFrom_zero] at hle ⊢
      refine ⟨fun n _ => ?_, fun h => absurd ⟨hne, hdec, rfl⟩ (h _ hle)⟩
      rw [Int.natCast_inj]
      exact ⟨fun h => ⟨hne, hdec, h⟩, fun h => h.2.2⟩
    | goesOn h => exact absurd h hnot
    | refused hno _ =>
      rw [decimalFrom_zero] at hno
      refine ⟨fun n hn => iff_of_false (fun h => ?_) fun h => ?_, fun _ => rfl⟩
      · omega
      · exact hno ⟨h.2.1, h.2.2.le.trans hn⟩

/-- The empty text is read as the identifier of root. -/
theorem isid_empty : ¬ ∀ text : CStr, ReadsIdentifier text := by
  intro h
  exact ((isid_exact_iff .empty).2.1 (h .empty)).1 rfl

/-- The letter behind `INT_MAX` is not looked at. -/
example : isid (.lit "2147483647x") = some 2147483647 := by decide +kernel

end SecLsmManager
