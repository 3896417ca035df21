import SecLsmManager.Lib.Cells
import Mathlib.Data.List.TakeWhile

/-!
# C strings and error codes

The types every part of the model shares. A `char` is a `UInt8`; a C string is the list of its
bytes before the terminating NUL, so that no value of `CStr` holds a NUL. Functions of the
source that return an `int` return an `Int`: zero or a positive value on success, a negative
`errno` value on failure.
-/

namespace SecLsmManager

/-- A C string: the bytes before its terminating NUL. -/
@[ext] structure CStr where
  bytes : List UInt8
  nonul : 0 ∉ bytes
  deriving DecidableEq

namespace CStr

/-- The C string at the start of `l`: the bytes up to the first NUL. -/
def ofBytes (l : List UInt8) : CStr :=
  ⟨l.takeWhile (· ≠ 0), fun h => by simpa using List.mem_takeWhile_imp h⟩

/-- The C string of a literal of the source. -/
def lit (s : String) : CStr := ofBytes (s.toList.map Char.toUInt8)

/-- The empty string. -/
def empty : CStr := ⟨[], List.not_mem_nil⟩

/-- `strlen`. -/
def length (s : CStr) : Nat := s.bytes.length

/-- The concatenation of two strings, as `snprintf` composes them. -/
def append (s t : CStr) : CStr :=
  ⟨s.bytes ++ t.bytes, by simp [s.nonul, t.nonul]⟩

instance : Append CStr := ⟨append⟩

/-- The bytes of a concatenation are those of its parts. -/
@[simp] theorem bytes_append (s t : CStr) : (s ++ t).bytes = s.bytes ++ t.bytes := rfl

/-- The first `n` bytes of a string. -/
def take (s : CStr) (n : Nat) : CStr :=
  ⟨s.bytes.take n, fun h => s.nonul (List.mem_of_mem_take h)⟩

/-- The string that `snprintf` leaves in a buffer of `size` bytes. -/
def snprintf (size : Nat) (s : CStr) : CStr := s.take (size - 1)

/-- A string that fits in the buffer, with its NUL, is left whole. -/
theorem snprintf_of_lt {size : Nat} {s : CStr} (h : s.length < size) : snprintf size s = s :=
  CStr.ext (List.take_of_length_le (Nat.le_sub_one_of_lt h))

/-- The lengths of two strings add up. -/
@[simp] theorem length_append (s t : CStr) : (s ++ t).length = s.length + t.length :=
  List.length_append

/-- A string ends at its NUL only. -/
theorem ofBytes_of_nonul {l : List UInt8} (h : 0 ∉ l) : (ofBytes l).bytes = l := by
  refine List.takeWhile_eq_self_iff.2 fun b hb => ?_
  simp only [decide_eq_true_eq]
  rintro rfl
  exact h hb

/-- A string is that of its bytes. -/
@[simp] theorem ofBytes_bytes (s : CStr) : ofBytes s.bytes = s :=
  CStr.ext (ofBytes_of_nonul s.nonul)

/-- What follows a NUL is not part of the string. -/
theorem ofBytes_append_nul (l r : List UInt8) : ofBytes (l ++ 0 :: r) = ofBytes l := by
  apply CStr.ext
  simp only [ofBytes, List.takeWhile_append]
  split
  · rename_i h
    rw [List.takeWhile_cons_of_neg (by simp), List.append_nil]
    exact ((List.takeWhile_prefix _).eq_of_length h).symm
  · rfl

/-- The string of a block that has its first NUL at index `n`. -/
theorem bytes_ofBytes_cells {m : Nat → UInt8} {n size : Nat} (h : n < size)
    (h0 : m n = 0) (hm : 0 ∉ Lib.cells m 0 n) :
    (ofBytes (Lib.cells m 0 size)).bytes = Lib.cells m 0 n := by
  obtain ⟨k, rfl⟩ := Nat.exists_eq_add_of_lt h
  rw [Nat.add_assoc, Lib.cells_append, Nat.zero_add, Lib.cells_succ, h0, ofBytes_append_nul,
    ofBytes_of_nonul hm]

end CStr

/-! ## Error codes -/

/-- The value `errno` has after a call that failed. -/
structure Errno where
  val : Int
  pos : 0 < val
  deriving DecidableEq

def EPERM : Int := 1
def ENOENT : Int := 2
def EAGAIN : Int := 11
def ENOMEM : Int := 12
def EACCES : Int := 13
def EBUSY : Int := 16
def EEXIST : Int := 17
def ENOTDIR : Int := 20
def EINVAL : Int := 22
def EPIPE : Int := 32
def ENAMETOOLONG : Int := 36
def ENODATA : Int := 61
def EPROTO : Int := 71
def EMSGSIZE : Int := 90
def ENOBUFS : Int := 105
def ECANCELED : Int := 125
def ENOTRECOVERABLE : Int := 131

/-! ## Sizes -/

def SEC_LSM_MANAGER_MAX_SIZE_PATH : Nat := 1024
def SEC_LSM_MANAGER_MIN_SIZE_ID : Nat := 2
def SEC_LSM_MANAGER_MAX_SIZE_ID : Nat := 200
def SEC_LSM_MANAGER_MAX_SIZE_LABEL : Nat := 255
def SEC_LSM_MANAGER_MIN_SIZE_PERMISSION : Nat := 2
def SEC_LSM_MANAGER_MAX_SIZE_PERMISSION : Nat := 1024

end SecLsmManager
