import SecLsmManager.Client.Utf8

/-!
# What `is_utf8` accepts

`is_utf8` looks at the bounds of the continuation bytes only: it accepts the strings made of
characters that are complete, well formed (`Utf8Char`) or not (`IllChar`). So it tells the UTF-8
encodings from the other strings as long as those have no character of the second kind
(`isUtf8_exact_iff`). It does not read behind the NUL.
-/

namespace SecLsmManager

/-! ## Encodings -/

/-- A UTF-8 text: the encoding of Unicode scalar values. -/
def EncodesChars (text : List UInt8) : Prop :=
  ∃ chars : List Char, text = chars.flatMap String.utf8EncodeChar

section

variable {a : UInt8} {n : Nat}

/-- The order of bytes is that of their values. -/
theorem le_byte (h : n < 256) : a ≤ UInt8.ofNat n ↔ a.toNat ≤ n := by
  rw [UInt8.le_iff_toNat_le, UInt8.toNat_ofNat_of_lt' h]

/-- The same the other way. -/
theorem byte_le (h : n < 256) : UInt8.ofNat n ≤ a ↔ n ≤ a.toNat := by
  rw [UInt8.le_iff_toNat_le, UInt8.toNat_ofNat_of_lt' h]

/-- Bytes are equal when their values are. -/
theorem byte_eq (h : n < 256) : UInt8.ofNat n = a ↔ n = a.toNat := by
  rw [← UInt8.toNat_inj, UInt8.toNat_ofNat_of_lt' h]

/-- The six bits of a code point make a continuation byte. -/
theorem tail_byte (n : Nat) : Utf8Tail (UInt8.ofNat (n % 64 + 128)) := by
  have h : n % 64 < 64 := Nat.mod_lt _ (by decide)
  refine ⟨(le_byte (by omega)).2 ?_, (byte_le (by omega)).2 ?_⟩
  · show 128 ≤ _
    omega
  · show _ ≤ 191
    omega

end

/-- The encoding of a scalar value is a well-formed character. -/
theorem utf8Char_encode (c : Char) : Utf8Char (String.utf8EncodeChar c) := by
  have hvalid : c.val.toNat < 0xd800 ∨ (0xdfff < c.val.toNat ∧ c.val.toNat < 0x110000) := c.valid
  unfold String.utf8EncodeChar
  generalize c.val.toNat = v at hvalid
  simp only
  split
  · exact .one ((byte_le (by omega)).2 (show v ≤ 127 by omega))
  split
  · refine .two ((le_byte (by omega)).2 ?_) ((byte_le (by omega)).2 ?_) (tail_byte v)
    · show 194 ≤ _
      omega
    · show _ ≤ 223
      omega
  split
  · refine .three ((le_byte (by omega)).2 ?_) ((byte_le (by omega)).2 ?_) (fun ha => ?_)
      (fun ha => ?_) (tail_byte (v / 64)) (tail_byte v)
    · show 224 ≤ _
      omega
    · show _ ≤ 239
      omega
    · have ha := (byte_eq (by omega)).1 ha
      refine (le_byte (by omega)).2 ?_
      change _ = 224 at ha
      show 160 ≤ _
      omega
    · have ha := (byte_eq (by omega)).1 ha
      refine (byte_le (by omega)).2 ?_
      change _ = 237 at ha
      show _ ≤ 159
      omega
  · refine .four ((le_byte (by omega)).2 ?_) ((byte_le (by omega)).2 ?_) (fun ha => ?_)
      (fun ha => ?_) (tail_byte (v / 4096)) (tail_byte (v / 64)) (tail_byte v)
    · show 240 ≤ _
      omega
    · show _ ≤ 244
      omega
    · have ha := (byte_eq (by omega)).1 ha
      refine (le_byte (by omega)).2 ?_
      change _ = 240 at ha
      show 144 ≤ _
      omega
    · have ha := (byte_eq (by omega)).1 ha
      refine (byte_le (by omega)).2 ?_
      change _ = 244 at ha
      show _ ≤ 143
      omega

/-- Every code point that is no surrogate is a character. -/
theorem exists_char {v : Nat} (h : v.isValidChar) : ∃ c : Char, c.val.toNat = v := by
  have hlt : v < UInt32.size := by
    rw [Nat.isValidChar] at h
    rw [UInt32.size]
    omega
  exact ⟨⟨UInt32.ofNatLT v hlt, by rwa [UInt32.isValidChar, UInt32.toNat_ofNatLT]⟩,
    UInt32.toNat_ofNatLT⟩

/-- A well-formed character is the encoding of a scalar value. -/
theorem Utf8Char.encodes {text : List UInt8} (h : Utf8Char text) :
    ∃ c : Char, String.utf8EncodeChar c = text := by
  cases h with
  | @one a ha =>
    have ha : a.toNat ≤ 127 := ha
    obtain ⟨c, hc⟩ := exists_char (v := a.toNat) (.inl (by omega))
    refine ⟨c, ?_⟩
    rw [String.utf8EncodeChar, hc]
    exact (if_pos ha).trans (by rw [UInt8.ofNat_toNat])
  | @two a b ha ha' hb =>
    have ha : 194 ≤ a.toNat := ha
    have ha' : a.toNat ≤ 223 := ha'
    have hb0 : 128 ≤ b.toNat := hb.1
    have hb1 : b.toNat ≤ 191 := hb.2
    obtain ⟨c, hc⟩ := exists_char (v := (a.toNat - 192) * 64 + (b.toNat - 128)) (.inl (by omega))
    refine ⟨c, ?_⟩
    rw [String.utf8EncodeChar, hc]
    rw [if_neg (by omega), if_pos (by omega),
      show ((a.toNat - 192) * 64 + (b.toNat - 128)) / 64 % 32 + 192 = a.toNat by omega,
      show ((a.toNat - 192) * 64 + (b.toNat - 128)) % 64 + 128 = b.toNat by omega,
      UInt8.ofNat_toNat, UInt8.ofNat_toNat]
  | @three a b d ha ha' hlow hhigh hb hd =>
    have ha : 224 ≤ a.toNat := ha
    have ha' : a.toNat ≤ 239 := ha'
    have hlow : a.toNat = 224 → 160 ≤ b.toNat := fun h => hlow (UInt8.toNat_inj.1 h)
    have hhigh : a.toNat = 237 → b.toNat ≤ 159 := fun h => hhigh (UInt8.toNat_inj.1 h)
    have hb0 : 128 ≤ b.toNat := hb.1
    have hb1 : b.toNat ≤ 191 := hb.2
    have hd0 : 128 ≤ d.toNat := hd.1
    have hd1 : d.toNat ≤ 191 := hd.2
    let v := (a.toNat - 224) * 4096 + (b.toNat - 128) * 64 + (d.toNat - 128)
    have hvalid : v.isValidChar := by
      rw [Nat.isValidChar]
      omega
    obtain ⟨c, hc⟩ := exists_char hvalid
    refine ⟨c, ?_⟩
    rw [String.utf8EncodeChar, hc]
    rw [if_neg (by omega), if_neg (by omega), if_pos (by omega),
      show v / 4096 % 16 + 224 = a.toNat by omega, show v / 64 % 64 + 128 = b.toNat by omega,
      show v % 64 + 128 = d.toNat by omega, UInt8.ofNat_toNat, UInt8.ofNat_toNat,
      UInt8.ofNat_toNat]
  | @four a b d e ha ha' hlow hhigh hb hd he =>
    have ha : 240 ≤ a.toNat := ha
    have ha' : a.toNat ≤ 244 := ha'
    have hlow : a.toNat = 240 → 144 ≤ b.toNat := fun h => hlow (UInt8.toNat_inj.1 h)
    have hhigh : a.toNat = 244 → b.toNat ≤ 143 := fun h => hhigh (UInt8.toNat_inj.1 h)
    have hb0 : 128 ≤ b.toNat := hb.1
    have hb1 : b.toNat ≤ 191 := hb.2
    have hd0 : 128 ≤ d.toNat := hd.1
    have hd1 : d.toNat ≤ 191 := hd.2
    have he0 : 128 ≤ e.toNat := he.1
    have he1 : e.toNat ≤ 191 := he.2
    let v := (a.toNat - 240) * 262144 + (b.toNat - 128) * 4096 + (d.toNat - 128) * 64 +
      (e.toNat - 128)
    have hvalid : v.isValidChar := by
      rw [Nat.isValidChar]
      omega
    obtain ⟨c, hc⟩ := exists_char hvalid
    refine ⟨c, ?_⟩
    rw [String.utf8EncodeChar, hc]
    rw [if_neg (by omega), if_neg (by omega), if_neg (by omega),
      show v / 262144 % 8 + 240 = a.toNat by omega, show v / 4096 % 64 + 128 = b.toNat by omega,
      show v / 64 % 64 + 128 = d.toNat by omega, show v % 64 + 128 = e.toNat by omega,
      UInt8.ofNat_toNat, UInt8.ofNat_toNat, UInt8.ofNat_toNat, UInt8.ofNat_toNat]

/-- The well-formed strings are the encodings. -/
theorem encodesChars_iff (text : List UInt8) : EncodesChars text ↔ Utf8 text := by
  constructor
  · rintro ⟨chars, rfl⟩
    induction chars with
    | nil => exact .nil
    | cons c chars ih =>
      rw [List.flatMap_cons]
      exact .cons (utf8Char_encode c) ih
  · intro h
    induction h with
    | nil => exact ⟨[], rfl⟩
    | cons hc _ ih =>
      obtain ⟨c, rfl⟩ := hc.encodes
      obtain ⟨chars, rfl⟩ := ih
      exact ⟨c :: chars, (List.flatMap_cons ..).symm⟩

/-! ## Complete characters -/

/-- The bytes of a character that is complete and not well formed: it is longer than it should be,
or it is for a surrogate or for a number above U+10FFFF. -/
inductive IllChar : List UInt8 → Prop
  | overlong2 {a b : UInt8} : 0xc0 ≤ a → a ≤ 0xc1 → Utf8Tail b → IllChar [a, b]
  | overlong3 {b c : UInt8} : b < 0xa0 → Utf8Tail b → Utf8Tail c → IllChar [0xe0, b, c]
  | surrogate {b c : UInt8} : 0x9f < b → Utf8Tail b → Utf8Tail c → IllChar [0xed, b, c]
  | overlong4 {b c d : UInt8} : b < 0x90 → Utf8Tail b → Utf8Tail c → Utf8Tail d →
      IllChar [0xf0, b, c, d]
  | above {b c d : UInt8} : 0x8f < b → Utf8Tail b → Utf8Tail c → Utf8Tail d →
      IllChar [0xf4, b, c, d]
  | farAbove {a b c d : UInt8} : 0xf5 ≤ a → a ≤ 0xf7 → Utf8Tail b → Utf8Tail c → Utf8Tail d →
      IllChar [a, b, c, d]

/-- The bytes of a character as `is_utf8` sees it: as many continuation bytes as the leading byte
announces. -/
def CompleteChar (text : List UInt8) : Prop :=
  ∃ a tail, text = a :: tail ∧ utf8Length a = some tail.length ∧ ∀ b ∈ tail, Utf8Tail b

/-- A string of complete characters. -/
inductive Complete : List UInt8 → Prop
  | nil : Complete []
  | cons {c l : List UInt8} : CompleteChar c → Complete l → Complete (c ++ l)

/-- An ASCII character announces no continuation byte. -/
theorem utf8Length_zero {a : UInt8} (h : a ≤ 0x7f) : utf8Length a = some 0 := if_pos h

/-- What a leading byte announces says where it is. -/
theorem utf8Length_cases {a : UInt8} {len : Nat} (h : utf8Length a = some len) :
    (len = 0 ∧ a ≤ 0x7f) ∨ (len = 1 ∧ 0xc0 ≤ a ∧ a ≤ 0xdf) ∨ (len = 2 ∧ 0xe0 ≤ a ∧ a ≤ 0xef) ∨
      (len = 3 ∧ 0xf0 ≤ a ∧ a ≤ 0xf7) := by
  unfold utf8Length at h
  split at h
  · rename_i ha
    exact .inl ⟨(Option.some.inj h).symm, ha⟩
  split at h
  · cases h
  rename_i hlow
  split at h
  · rename_i ha
    exact .inr (.inl ⟨(Option.some.inj h).symm, UInt8.not_le.1 hlow, ha⟩)
  rename_i hlow
  split at h
  · rename_i ha
    exact .inr (.inr (.inl ⟨(Option.some.inj h).symm, UInt8.not_le.1 hlow, ha⟩))
  rename_i hlow
  split at h
  · rename_i ha
    exact .inr (.inr (.inr ⟨(Option.some.inj h).symm, UInt8.not_le.1 hlow, ha⟩))
  · cases h

/-- A complete character is well formed or not. -/
theorem CompleteChar.cases {text : List UInt8} (h : CompleteChar text) :
    Utf8Char text ∨ IllChar text := by
  obtain ⟨a, tail, rfl, hlen, htail⟩ := h
  obtain ⟨h0, ha⟩ | ⟨h1, ha, ha'⟩ | ⟨h2, ha, ha'⟩ | ⟨h3, ha, ha'⟩ := utf8Length_cases hlen
  · obtain rfl := List.length_eq_zero_iff.1 h0
    exact .inl (.one ha)
  · obtain ⟨b, rfl⟩ := List.length_eq_one_iff.1 h1
    have hb := htail b (by simp)
    by_cases hover : a ≤ 0xc1
    · exact .inr (.overlong2 ha hover hb)
    · exact .inl (.two (UInt8.not_le.1 hover) ha' hb)
  · obtain ⟨b, c, rfl⟩ := List.length_eq_two.1 h2
    have hb := htail b (by simp)
    have hc := htail c (by simp)
    by_cases hover : a = 0xe0 ∧ b < 0xa0
    · obtain ⟨rfl, hover⟩ := hover
      exact .inr (.overlong3 hover hb hc)
    by_cases hsur : a = 0xed ∧ 0x9f < b
    · obtain ⟨rfl, hsur⟩ := hsur
      exact .inr (.surrogate hsur hb hc)
    · refine .inl (.three ha ha' (fun hae => UInt8.not_lt.1 fun hlt => hover ⟨hae, hlt⟩)
        (fun hae => UInt8.not_lt.1 fun hlt => hsur ⟨hae, hlt⟩) hb hc)
  · obtain ⟨b, c, d, rfl⟩ := List.length_eq_three.1 h3
    have hb := htail b (by simp)
    have hc := htail c (by simp)
    have hd := htail d (by simp)
    by_cases hfar : a ≤ 0xf4
    · by_cases hover : a = 0xf0 ∧ b < 0x90
      · obtain ⟨rfl, hover⟩ := hover
        exact .inr (.overlong4 hover hb hc hd)
      by_cases habove : a = 0xf4 ∧ 0x8f < b
      · obtain ⟨rfl, habove⟩ := habove
        exact .inr (.above habove hb hc hd)
      · refine .inl (.four ha hfar (fun hae => UInt8.not_lt.1 fun hlt => hover ⟨hae, hlt⟩)
          (fun hae => UInt8.not_lt.1 fun hlt => habove ⟨hae, hlt⟩) hb hc hd)
    · exact .inr (.farAbove (UInt8.not_le.1 hfar) ha' hb hc hd)

/-- A well-formed character has the bytes that its first one announces. -/
theorem Utf8Char.complete {text : List UInt8} (h : Utf8Char text) : CompleteChar text := by
  cases h with
  | one ha => exact ⟨_, [], rfl, utf8Length_zero ha, by simp⟩
  | two ha ha' hb =>
    have ha := UInt8.le_trans (by decide : (0xc0 : UInt8) ≤ 0xc2) ha
    exact ⟨_, [_], rfl, utf8Length_two ha ha', by simpa using hb⟩
  | three ha ha' _ _ hb hc =>
    exact ⟨_, [_, _], rfl, utf8Length_three ha ha', by simpa using ⟨hb, hc⟩⟩
  | four ha ha' _ _ hb hc hd =>
    have ha' := UInt8.le_trans ha' (by decide : (0xf4 : UInt8) ≤ 0xf7)
    exact ⟨_, [_, _, _], rfl, utf8Length_four ha ha', by simpa using ⟨hb, hc, hd⟩⟩

/-- So has each of the others. -/
theorem IllChar.complete {text : List UInt8} (h : IllChar text) : CompleteChar text := by
  cases h with
  | overlong2 ha ha' hb =>
    have ha' := UInt8.le_trans ha' (by decide : (0xc1 : UInt8) ≤ 0xdf)
    exact ⟨_, [_], rfl, utf8Length_two ha ha', by simpa using hb⟩
  | overlong3 _ hb hc => exact ⟨_, [_, _], rfl, rfl, by simpa using ⟨hb, hc⟩⟩
  | surrogate _ hb hc => exact ⟨_, [_, _], rfl, rfl, by simpa using ⟨hb, hc⟩⟩
  | overlong4 _ hb hc hd => exact ⟨_, [_, _, _], rfl, rfl, by simpa using ⟨hb, hc, hd⟩⟩
  | above _ hb hc hd => exact ⟨_, [_, _, _], rfl, rfl, by simpa using ⟨hb, hc, hd⟩⟩
  | farAbove ha ha' hb hc hd =>
    have ha := UInt8.le_trans (by decide : (0xf0 : UInt8) ≤ 0xf5) ha
    exact ⟨_, [_, _, _], rfl, utf8Length_four ha ha', by simpa using ⟨hb, hc, hd⟩⟩

/-- They are not well formed. -/
theorem IllChar.not_utf8Char {text : List UInt8} (h : IllChar text) : ¬ Utf8Char text := by
  intro hu
  cases h with
  | overlong2 _ ha _ =>
    cases hu with
    | two hc2 _ _ => exact absurd ha (not_le_of_byte_le hc2 (by decide))
  | overlong3 hb _ _ =>
    cases hu with
    | three _ _ hlow _ _ _ => exact absurd (hlow rfl) (UInt8.not_le.2 hb)
  | surrogate hb _ _ =>
    cases hu with
    | three _ _ _ hhigh _ _ => exact absurd (hhigh rfl) (UInt8.not_le.2 hb)
  | overlong4 hb _ _ _ =>
    cases hu with
    | four _ _ hlow _ _ _ _ => exact absurd (hlow rfl) (UInt8.not_le.2 hb)
  | above hb _ _ _ =>
    cases hu with
    | four _ _ _ hhigh _ _ _ => exact absurd (hhigh rfl) (UInt8.not_le.2 hb)
  | farAbove ha _ _ _ _ =>
    cases hu with
    | four _ ha' _ _ _ _ _ => exact absurd ha' (not_le_of_byte_le ha (by decide))

/-- Where a complete character ends is read from its first byte. -/
theorem CompleteChar.unique {c c' l l' : List UInt8} (h : CompleteChar c) (h' : CompleteChar c')
    (heq : c ++ l = c' ++ l') : c = c' ∧ l = l' := by
  obtain ⟨a, tail, rfl, hlen, -⟩ := h
  obtain ⟨a', tail', rfl, hlen', -⟩ := h'
  rw [List.cons_append, List.cons_append, List.cons.injEq] at heq
  obtain ⟨rfl, heq⟩ := heq
  obtain ⟨rfl, rfl⟩ := List.append_inj heq (Option.some.inj (hlen.symm.trans hlen'))
  exact ⟨rfl, rfl⟩

/-! ## The check -/

/-- The loop passes the continuation bytes that it expects. -/
theorem utf8Loop_tails {tail : List UInt8} (h : ∀ b ∈ tail, Utf8Tail b) (l : List UInt8) :
    utf8Loop tail.length (tail ++ l) = utf8Loop 0 l := by
  induction tail with
  | nil => rfl
  | cons b tail ih =>
    obtain ⟨hb, htail⟩ := List.forall_mem_cons.1 h
    exact (utf8Loop_tail hb _ _).trans (ih htail)

/-- It passes strings of complete characters. -/
theorem Complete.utf8Loop {text : List UInt8} (h : Complete text) : utf8Loop 0 text = true := by
  induction h with
  | nil => rfl
  | cons hc _ ih =>
    obtain ⟨a, tail, rfl, hlen, htail⟩ := hc
    rw [List.cons_append, utf8Loop_lead hlen, utf8Loop_tails htail, ih]

/-- And no others: what it passes are the bytes still expected and complete characters. -/
theorem exists_of_utf8Loop {len : Nat} {text : List UInt8} (h : utf8Loop len text = true) :
    ∃ tail l, text = tail ++ l ∧ tail.length = len ∧ (∀ b ∈ tail, Utf8Tail b) ∧ Complete l := by
  induction text generalizing len with
  | nil =>
    cases len with
    | zero => exact ⟨[], [], rfl, rfl, List.forall_mem_nil _, .nil⟩
    | succ len => cases h
  | cons a text ih =>
    cases len with
    | zero =>
      simp only [SecLsmManager.utf8Loop] at h
      cases hlen : utf8Length a with
      | none => simp only [hlen, Bool.false_eq_true] at h
      | some len =>
        simp only [hlen] at h
        obtain ⟨tail, l, rfl, rfl, htail, hl⟩ := ih h
        exact ⟨[], a :: (tail ++ l), rfl, rfl, List.forall_mem_nil _,
          .cons (c := a :: tail) ⟨a, tail, rfl, hlen, htail⟩ hl⟩
    | succ len =>
      simp only [SecLsmManager.utf8Loop] at h
      split at h
      · cases h
      rename_i ha
      rw [not_or, UInt8.not_lt, UInt8.not_lt] at ha
      obtain ⟨tail, l, rfl, rfl, htail, hl⟩ := ih h
      exact ⟨a :: tail, l, rfl, rfl, List.forall_mem_cons.2 ⟨ha, htail⟩, hl⟩

/-- `is_utf8` accepts the strings of complete characters. -/
theorem isUtf8_iff_complete (s : CStr) : isUtf8 s = true ↔ Complete s.bytes := by
  constructor
  · intro h
    obtain ⟨tail, l, htext, hlen, -, hl⟩ := exists_of_utf8Loop h
    obtain rfl := List.length_eq_zero_iff.1 hlen
    rwa [htext]
  · exact Complete.utf8Loop

/-- A well-formed string has complete characters. -/
theorem Utf8.complete {text : List UInt8} (h : Utf8 text) : Complete text := by
  induction h with
  | nil => exact .nil
  | cons hc _ ih => exact .cons hc.complete ih

/-- A string has a complete character that is not well formed, among complete ones. -/
def HasIllChar (text : List UInt8) : Prop :=
  ∃ pre c post, text = pre ++ (c ++ post) ∧ Complete pre ∧ IllChar c ∧ Complete post

/-- None of them is ill formed, as a string splits into complete characters in one way. -/
theorem Utf8.not_hasIllChar {text : List UInt8} (h : Utf8 text) : ¬ HasIllChar text := by
  rintro ⟨pre, c, post, rfl, hpre, hc, -⟩
  induction hpre with
  | nil =>
    rw [List.nil_append] at h
    generalize htext : c ++ post = text at h
    cases h with
    | nil =>
      obtain ⟨a, tail, rfl, -⟩ := hc.complete
      cases htext
    | cons hc' _ =>
      obtain ⟨rfl, -⟩ := hc.complete.unique hc'.complete htext
      exact hc.not_utf8Char hc'
  | @cons c₀ pre hc₀ _ ih =>
    rw [List.append_assoc] at h
    generalize htext : c₀ ++ (pre ++ (c ++ post)) = text at h
    cases h with
    | nil =>
      obtain ⟨a, tail, rfl, -⟩ := hc₀
      cases htext
    | cons hc' hl =>
      obtain ⟨-, rfl⟩ := hc₀.unique hc'.complete htext
      exact ih hl

/-- A string of complete characters is well formed, unless one of them is not. -/
theorem Complete.utf8 {text : List UInt8} (h : Complete text) (hill : ¬ HasIllChar text) :
    Utf8 text := by
  induction h with
  | nil => exact .nil
  | @cons c l hc hl ih =>
    obtain hu | hi := hc.cases
    · refine .cons hu (ih ?_)
      rintro ⟨pre, d, post, rfl, hpre, hd, hpost⟩
      exact hill ⟨c ++ pre, d, post, by simp, .cons hc hpre, hd, hpost⟩
    · exact absurd ⟨[], c, l, rfl, .nil, hi, hl⟩ hill

/-- Two such strings make one. -/
theorem Complete.append {pre text : List UInt8} (h : Complete pre) (h' : Complete text) :
    Complete (pre ++ text) := by
  induction h with
  | nil => exact h'
  | cons hc _ ih =>
    rw [List.append_assoc]
    exact .cons hc ih

/-! ## The reads -/

/-- The loops of `is_utf8` over a block of memory: `none` when they read outside the block, or do
not end in `fuel` turns. -/
def utf8Read (text : List UInt8) : Nat → Nat → Nat → Option Bool
  | 0, _, _ => none
  | fuel + 1, 0, iter => do
    let c ← text[iter]?
    if c = 0 then some true
    else
      match utf8Length c with
      | none => some false
      | some len => utf8Read text fuel len (iter + 1)
  | fuel + 1, len + 1, iter => do
    let c ← text[iter]?
    if c < 0x80 ∨ c > 0xbf then some false else utf8Read text fuel len (iter + 1)

/-- The block of a string: its bytes and its NUL. -/
def CStr.block (s : CStr) : List UInt8 := s.bytes ++ [0]

/-- The reads stay in the block, up to its NUL, and come to the same answer. -/
theorem utf8Read_eq (pre : List UInt8) {text : List UInt8} (hnonul : 0 ∉ text) (len : Nat) :
    utf8Read (pre ++ text ++ [0]) (text.length + 1) len pre.length = some (utf8Loop len text) := by
  induction text generalizing pre len with
  | nil =>
    have hend : (pre ++ [] ++ [0])[pre.length]? = some (0 : UInt8) := by simp
    cases len with
    | zero => simp [utf8Read, utf8Loop]
    | succ len => simp [utf8Read, utf8Loop]
  | cons c text ih =>
    obtain ⟨hc, htext⟩ := not_or.1 (List.mem_cons.not.1 hnonul)
    have hget : (pre ++ c :: text ++ [0])[pre.length]? = some c := by simp
    have hnext : ∀ len, utf8Read (pre ++ c :: text ++ [0]) (text.length + 1) len (pre.length + 1) =
        some (utf8Loop len text) := by
      intro len
      have h := ih (pre ++ [c]) htext len
      rwa [List.append_assoc pre, List.singleton_append, List.length_append,
        List.length_singleton] at h
    cases len with
    | zero =>
      rw [List.length_cons, utf8Read, hget, utf8Loop]
      simp only [Option.bind_eq_bind, Option.bind_some, if_neg (Ne.symm hc)]
      cases utf8Length c with
      | none => rfl
      | some len => exact hnext len
    | succ len =>
      rw [List.length_cons, utf8Read, hget, utf8Loop]
      simp only [Option.bind_eq_bind, Option.bind_some]
      split
      · rfl
      · exact hnext len

/-- **What `is_utf8` tells apart.** Its answer is right exactly when the string has no complete
character that is not well formed; and it reads no byte behind the NUL. -/
theorem isUtf8_exact_iff (s : CStr) :
    ((isUtf8 s = true ↔ EncodesChars s.bytes) ↔ ¬ HasIllChar s.bytes) ∧
      utf8Read s.block (s.length + 1) 0 0 = some (isUtf8 s) := by
  refine ⟨?_, utf8Read_eq [] s.nonul 0⟩
  rw [isUtf8_iff_complete, encodesChars_iff]
  constructor
  · rintro hexact hill
    obtain ⟨pre, c, post, htext, hpre, hc, hpost⟩ := hill
    have hcomplete : Complete s.bytes := by
      rw [htext]
      exact hpre.append (.cons hc.complete hpost)
    exact (hexact.1 hcomplete).not_hasIllChar ⟨pre, c, post, htext, hpre, hc, hpost⟩
  · intro hill
    exact ⟨fun h => h.utf8 hill, Utf8.complete⟩

/-- The overlong encoding of a slash, `C0 AF`, passes the check. -/
theorem isUtf8_overlong : ¬ ∀ s : CStr, isUtf8 s = true ↔ EncodesChars s.bytes := by
  intro h
  have hill : HasIllChar [0xc0, 0xaf] :=
    ⟨[], [0xc0, 0xaf], [], rfl, .nil,
      .overlong2 (by decide) (by decide) ⟨by decide, by decide⟩, .nil⟩
  have hencodes := (h ⟨[0xc0, 0xaf], by decide⟩).1 (by decide)
  exact ((encodesChars_iff _).1 hencodes).not_hasIllChar hill

end SecLsmManager
