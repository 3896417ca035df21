import SecLsmManager.Base

/-!
# UTF-8

`is_utf8` of `utf8-utils.c`, which looks at the number of continuation bytes that a leading byte
announces, and the syntax of UTF-8 itself. Every well-formed string passes the check.
-/

namespace SecLsmManager

/-- The number of continuation bytes after the leading byte `c`. -/
def utf8Length (c : UInt8) : Option Nat :=
  if c ≤ 0x7f then some 0
  else if c ≤ 0xbf then none
  else if c ≤ 0xdf then some 1
  else if c ≤ 0xef then some 2
  else if c ≤ 0xf7 then some 3
  else none

/-- The loops of `is_utf8`, when `len` continuation bytes are still expected. -/
def utf8Loop : Nat → List UInt8 → Bool
  | 0, [] => true
  | 0, c :: iter =>
    match utf8Length c with
    | none => false
    | some len => utf8Loop len iter
  | _ + 1, [] => false
  | len + 1, c :: iter => if c < 0x80 ∨ c > 0xbf then false else utf8Loop len iter

def isUtf8 (text : CStr) : Bool := utf8Loop 0 text.bytes

/-! ## Well-formed strings -/

/-- A continuation byte. -/
def Utf8Tail (c : UInt8) : Prop := 0x80 ≤ c ∧ c ≤ 0xbf

/-- The bytes of one character: the shortest encoding of a code point that is neither a surrogate
nor above U+10FFFF. -/
inductive Utf8Char : List UInt8 → Prop
  | one {a : UInt8} : a ≤ 0x7f → Utf8Char [a]
  | two {a b : UInt8} : 0xc2 ≤ a → a ≤ 0xdf → Utf8Tail b → Utf8Char [a, b]
  | three {a b c : UInt8} : 0xe0 ≤ a → a ≤ 0xef → (a = 0xe0 → 0xa0 ≤ b) → (a = 0xed → b ≤ 0x9f) →
      Utf8Tail b → Utf8Tail c → Utf8Char [a, b, c]
  | four {a b c d : UInt8} : 0xf0 ≤ a → a ≤ 0xf4 → (a = 0xf0 → 0x90 ≤ b) → (a = 0xf4 → b ≤ 0x8f) →
      Utf8Tail b → Utf8Tail c → Utf8Tail d → Utf8Char [a, b, c, d]

/-- A well-formed UTF-8 string. -/
inductive Utf8 : List UInt8 → Prop
  | nil : Utf8 []
  | cons {c l : List UInt8} : Utf8Char c → Utf8 l → Utf8 (c ++ l)

/-- A string of ASCII characters. -/
theorem Utf8.ascii {l : List UInt8} (h : ∀ a ∈ l, a ≤ 0x7f) : Utf8 l := by
  induction l with
  | nil => exact .nil
  | cons a l ih =>
    obtain ⟨ha, hl⟩ := List.forall_mem_cons.1 h
    exact .cons (.one ha) (ih hl)

/-- An expected continuation byte is passed. -/
theorem utf8Loop_tail {c : UInt8} (h : Utf8Tail c) (len : Nat) (l : List UInt8) :
    utf8Loop (len + 1) (c :: l) = utf8Loop len l := by
  obtain ⟨h1, h2⟩ := h
  rw [utf8Loop, if_neg]
  rintro (h | h)
  · exact absurd h1 (UInt8.not_le.2 h)
  · exact absurd h2 (UInt8.not_le.2 h)

/-- A byte below `a` is below all that is not less than `a`. -/
theorem not_le_of_byte_le {a b c : UInt8} (h : a ≤ b) (hc : c < a) : ¬ b ≤ c :=
  fun h' => absurd (UInt8.lt_of_lt_of_le hc h) (UInt8.not_lt.2 h')

/-- The bytes that announce one continuation byte. -/
theorem utf8Length_two {a : UInt8} (h1 : 0xc0 ≤ a) (h2 : a ≤ 0xdf) : utf8Length a = some 1 := by
  rw [utf8Length, if_neg (not_le_of_byte_le h1 (by decide)),
    if_neg (not_le_of_byte_le h1 (by decide)), if_pos h2]

/-- Those that announce two. -/
theorem utf8Length_three {a : UInt8} (h1 : 0xe0 ≤ a) (h2 : a ≤ 0xef) : utf8Length a = some 2 := by
  rw [utf8Length, if_neg (not_le_of_byte_le h1 (by decide)),
    if_neg (not_le_of_byte_le h1 (by decide)), if_neg (not_le_of_byte_le h1 (by decide)),
    if_pos h2]

/-- And those that announce three. -/
theorem utf8Length_four {a : UInt8} (h1 : 0xf0 ≤ a) (h2 : a ≤ 0xf7) : utf8Length a = some 3 := by
  rw [utf8Length, if_neg (not_le_of_byte_le h1 (by decide)),
    if_neg (not_le_of_byte_le h1 (by decide)), if_neg (not_le_of_byte_le h1 (by decide)),
    if_neg (not_le_of_byte_le h1 (by decide)), if_pos h2]

/-- A leading byte says how many continuation bytes are expected. -/
theorem utf8Loop_lead {a : UInt8} {len : Nat} (h : utf8Length a = some len) (l : List UInt8) :
    utf8Loop 0 (a :: l) = utf8Loop len l := by
  rw [utf8Loop, h]

/-- The check goes past each well-formed character. -/
theorem Utf8Char.utf8Loop {c : List UInt8} (h : Utf8Char c) (l : List UInt8) :
    utf8Loop 0 (c ++ l) = utf8Loop 0 l := by
  cases h with
  | one h => exact utf8Loop_lead (if_pos h) l
  | two h1 h2 h3 =>
    have h1 := UInt8.le_trans (by decide : (0xc0 : UInt8) ≤ 0xc2) h1
    exact (utf8Loop_lead (utf8Length_two h1 h2) _).trans (utf8Loop_tail h3 _ _)
  | three h1 h2 _ _ h3 h4 =>
    refine (utf8Loop_lead (utf8Length_three h1 h2) _).trans ?_
    exact (utf8Loop_tail h3 _ _).trans (utf8Loop_tail h4 _ _)
  | four h1 h2 _ _ h3 h4 h5 =>
    have h2 := UInt8.le_trans h2 (by decide : (0xf4 : UInt8) ≤ 0xf7)
    refine (utf8Loop_lead (utf8Length_four h1 h2) _).trans ?_
    exact (utf8Loop_tail h3 _ _).trans ((utf8Loop_tail h4 _ _).trans (utf8Loop_tail h5 _ _))

/-- **Every well-formed string passes `is_utf8`.** -/
theorem Utf8.isUtf8 {s : CStr} (h : Utf8 s.bytes) : isUtf8 s = true := by
  unfold SecLsmManager.isUtf8
  generalize s.bytes = l at h
  induction h with
  | nil => rfl
  | cons hc _ ih => rw [hc.utf8Loop, ih]

end SecLsmManager
