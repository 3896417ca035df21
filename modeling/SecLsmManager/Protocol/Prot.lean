import SecLsmManager.Base
import SecLsmManager.Lib.Escape

/-!
# The protocol handler `prot_t`

The functions of `protocol/prot.c`, over the state `Prot` of its `struct prot`. The two buffers
are blocks of cells with a position and a count: the output one is a ring, the input one is
linear. A pointer to a received field is its index in the input block. What the file
descriptors do is an argument: `WriteAnswer` for `writev`, `ReadAnswer` for `read`, after the
retries on `EINTR`.
-/

namespace SecLsmManager

open Lib

def PROT_MAX_FIELDS : Nat := 20
def PROT_MAX_BUFFER_LENGTH : Nat := 2000
def PROT_FIELD_SEPARATOR : UInt8 := 32
def PROT_RECORD_SEPARATOR : UInt8 := 10
def PROT_ESCAPE : UInt8 := 92
def INT_MAX : Nat := 2147483647

/-- The marks of the protocol: SPACE, LF and BACKSLASH. -/
def protMarks : Marks UInt8 where
  sep := PROT_FIELD_SEPARATOR
  eor := PROT_RECORD_SEPARATOR
  esc := PROT_ESCAPE
  sep_ne_eor := by decide
  sep_ne_esc := by decide
  eor_ne_esc := by decide

/-- `struct buf`: the meaning of `pos` and `count` is not fixed. -/
structure Buf where
  pos : Nat
  count : Nat
  content : Nat → UInt8

/-- `struct fields`: the count of fields, negative if invalid, and their pointers. -/
structure Fields where
  count : Int
  fields : Nat → Nat

/-- `struct prot`. -/
structure Prot where
  inbuf : Buf
  outbuf : Buf
  /-- count of pending output fields -/
  outfields : Nat
  /-- count of writable bytes -/
  wrokcnt : Nat
  allowEmpty : Bool
  fields : Fields

/-- The result of `writev`. -/
inductive WriteAnswer
  | written (n : Nat)
  | error (e : Errno)

/-- The result of `read`. -/
inductive ReadAnswer
  | data (bytes : List UInt8)
  | error (e : Errno)

/-! ## Output -/

def bufPutCar (buf : Buf) (car : UInt8) : Int × Buf :=
  if buf.count ≥ PROT_MAX_BUFFER_LENGTH then (-ECANCELED, buf)
  else
    let pos := wrap PROT_MAX_BUFFER_LENGTH (buf.count + buf.pos)
    (0, { buf with count := buf.count + 1, content := Function.update buf.content pos car })

/-- The locals of `buf_put_string`, with the content they write. -/
structure PutCursor where
  content : Nat → UInt8
  pos : Nat
  remain : Nat

/-- Store one byte at the cursor, or `none` for `goto cancel`. -/
def PutCursor.store (k : PutCursor) (c : UInt8) : Option PutCursor :=
  if k.remain = 0 then none
  else some {
    content := Function.update k.content k.pos c
    pos := if k.pos + 1 = PROT_MAX_BUFFER_LENGTH then 0 else k.pos + 1
    remain := k.remain - 1 }

/-- Whether `buf_put_string` escapes `c` when `string` follows it. -/
def putEscape (c : UInt8) (string : List UInt8) : Bool :=
  if c = PROT_FIELD_SEPARATOR ∨ c = PROT_RECORD_SEPARATOR then true
  else if c = PROT_ESCAPE then
    match string with
    | [] => true
    | d :: _ => d = PROT_FIELD_SEPARATOR || d = PROT_RECORD_SEPARATOR || d = PROT_ESCAPE
  else false

/-- Store bytes one after the other, up to a `goto cancel`. What was stored stays stored. -/
def PutCursor.storeAll : List UInt8 → PutCursor → Bool × PutCursor
  | [], k => (true, k)
  | c :: cs, k =>
    match k.store c with
    | none => (false, k)
    | some k => storeAll cs k

/-- The loop of `buf_put_string`. -/
def putLoop : List UInt8 → PutCursor → Bool × PutCursor
  | [], k => (true, k)
  | c :: string, k =>
    match k.storeAll (if putEscape c string then [PROT_ESCAPE, c] else [c]) with
    | (true, k) => putLoop string k
    | (false, k) => (false, k)

def bufPutString (buf : Buf) (string : CStr) : Int × Buf :=
  let pos := wrap PROT_MAX_BUFFER_LENGTH (buf.pos + buf.count)
  match putLoop string.bytes ⟨buf.content, pos, PROT_MAX_BUFFER_LENGTH - buf.count⟩ with
  | (true, k) => (0, { buf with content := k.content, count := PROT_MAX_BUFFER_LENGTH - k.remain })
  | (false, k) => (-ECANCELED, { buf with content := k.content })

/-- The bytes of the `iovec` that `buf_write_length` prepares for `count` bytes. -/
def bufIovec (buf : Buf) (count : Nat) : List UInt8 :=
  if buf.pos + count ≤ PROT_MAX_BUFFER_LENGTH then cells buf.content buf.pos count
  else
    let len0 := PROT_MAX_BUFFER_LENGTH - buf.pos
    cells buf.content buf.pos len0 ++ cells buf.content 0 (count - len0)

/-- The result, the buffer and the bytes that were transferred. -/
def bufWriteLength (buf : Buf) (count : Nat) (answer : WriteAnswer) : Int × Buf × List UInt8 :=
  let count := min (min count buf.count) INT_MAX
  if count = 0 then (-ENODATA, buf, [])
  else
    match answer with
    | .error e => (-e.val, buf, [])
    | .written n =>
      let rc := min n count
      (rc,
       { buf with count := buf.count - rc, pos := wrap PROT_MAX_BUFFER_LENGTH (buf.pos + rc) },
       (bufIovec buf count).take rc)

def protPutCancel (prot : Prot) : Prot :=
  if prot.outfields ≠ 0 then
    { prot with outbuf := { prot.outbuf with count := prot.wrokcnt }, outfields := 0 }
  else prot

def protPutEnd (prot : Prot) : Int × Prot :=
  if prot.outfields ≠ 0 ∨ prot.allowEmpty then
    let (rc, outbuf) := bufPutCar prot.outbuf PROT_RECORD_SEPARATOR
    if rc = 0 then (rc, { prot with outbuf, wrokcnt := outbuf.count, outfields := 0 })
    else (rc, { prot with outbuf })
  else (0, prot)

def protPutField (prot : Prot) (field : CStr) : Int × Prot :=
  let (rc, outbuf) :=
    if prot.outfields ≠ 0 then bufPutCar prot.outbuf PROT_FIELD_SEPARATOR else (0, prot.outbuf)
  let prot := { prot with outbuf, outfields := prot.outfields + 1 }
  if rc ≥ 0 then
    let (rc, outbuf) := bufPutString prot.outbuf field
    (rc, { prot with outbuf })
  else (rc, prot)

def protPutFields (prot : Prot) : List CStr → Int × Prot
  | [] => (0, prot)
  | field :: fields =>
    let (rc, prot) := protPutField prot field
    if rc ≥ 0 ∧ fields ≠ [] then protPutFields prot fields else (rc, prot)

def protPut (prot : Prot) (fields : List CStr) : Int × Prot :=
  let (rc, prot) := protPutFields prot fields
  let (rc, prot) := if rc = 0 then protPutEnd prot else (rc, prot)
  if rc ≠ 0 then (rc, protPutCancel prot) else (rc, prot)

def protShouldWrite (prot : Prot) : Bool := prot.wrokcnt > 0

def protWrite (prot : Prot) (answer : WriteAnswer) : Int × Prot × List UInt8 :=
  let (result, outbuf, bytes) := bufWriteLength prot.outbuf prot.wrokcnt answer
  (result,
   { prot with
     outbuf, wrokcnt := if result > 0 then prot.wrokcnt - result.toNat else prot.wrokcnt },
   bytes)

/-! ## Input -/

/-- An access of `buf_get_fields` to the content: a read of an index, or a write of an index
while `unread` is the next unread byte. -/
inductive Access
  | read (index : Nat)
  | write (index unread : Nat)

/-- The locals of `buf_get_fields`, with the content and the fields they fill. The accesses are
recorded for the statements about them; nothing reads them. -/
structure Decoding where
  content : Nat → UInt8
  read : Nat
  write : Nat
  count : Nat
  fields : Nat → Nat
  accesses : List Access

/-- `c = buf->content[read++]`. -/
def Decoding.fetch (d : Decoding) : UInt8 × Decoding :=
  (d.content d.read, { d with read := d.read + 1, accesses := .read d.read :: d.accesses })

/-- `buf->content[write++] = c`. -/
def Decoding.store (d : Decoding) (c : UInt8) : Decoding :=
  { d with
    content := Function.update d.content d.write c
    write := d.write + 1
    accesses := .write d.write d.read :: d.accesses }

/-- One turn of the loop of `buf_get_fields`: whether it goes on, and the locals after it. -/
def Decoding.step (d : Decoding) : Bool × Decoding :=
  let (c, d) := d.fetch
  if c = PROT_FIELD_SEPARATOR then
    let d := d.store 0
    if d.count ≥ PROT_MAX_FIELDS then (false, d)
    else
      let d := { d with count := d.count + 1 }
      if d.count < PROT_MAX_FIELDS then
        (true, { d with fields := Function.update d.fields d.count d.write })
      else (true, d)
  else if c = PROT_RECORD_SEPARATOR then
    let more := if d.write > 0 ∧ d.count < PROT_MAX_FIELDS then 1 else 0
    (false, { d.store 0 with write := d.write, count := d.count + more })
  else if c = PROT_ESCAPE then
    let (c, d) := d.fetch
    if c ≠ PROT_FIELD_SEPARATOR ∧ c ≠ PROT_RECORD_SEPARATOR ∧ c ≠ PROT_ESCAPE then
      (true, (d.store PROT_ESCAPE).store c)
    else (true, d.store c)
  else (true, d.store c)

/-- The loop of `buf_get_fields`. Each turn reads a byte, so `PROT_MAX_BUFFER_LENGTH` turns are
as many as the content allows. -/
def Decoding.loop : Nat → Decoding → Decoding
  | 0, d => d
  | n + 1, d =>
    match d.step with
    | (true, d) => loop n d
    | (false, d) => d

/-- The locals of `buf_get_fields` when its loop starts. -/
def Decoding.init (buf : Buf) (fields : Fields) : Decoding :=
  { content := buf.content, read := 0, write := 0, count := 0,
    fields := Function.update fields.fields 0 0, accesses := [] }

/-- The locals of `buf_get_fields` when it returns. -/
def bufDecode (buf : Buf) (fields : Fields) : Decoding :=
  (Decoding.init buf fields).loop PROT_MAX_BUFFER_LENGTH

def bufGetFields (buf : Buf) (fields : Fields) : Buf × Fields :=
  let d := bufDecode buf fields
  ({ buf with pos := buf.pos + 1, content := d.content }, { count := d.count, fields := d.fields })

/-- The loop that counts in `nesc` the escapes before `pos`. -/
def countEscapes (content : Nat → UInt8) : Nat → Nat
  | 0 => 0
  | pos + 1 => if content pos = PROT_ESCAPE then countEscapes content pos + 1 else 0

/-- The search loop of `buf_scan_end_record` over the `n` bytes from `pos` on. -/
def scanLoop (content : Nat → UInt8) : Nat → Nat → Bool × Nat
  | 0, pos => (false, pos)
  | n + 1, pos =>
    if content pos = PROT_RECORD_SEPARATOR ∧ countEscapes content pos % 2 = 0 then (true, pos)
    else scanLoop content n (pos + 1)

def bufScanEndRecord (buf : Buf) : Bool × Buf :=
  let (found, pos) := scanLoop buf.content (buf.count - buf.pos) buf.pos
  (found, { buf with pos })

def bufCrop (buf : Buf) : Buf :=
  let count := buf.count - buf.pos
  { pos := 0, count, content := writeCells buf.content 0 (cells buf.content buf.pos count) }

def inbufRead (buf : Buf) (answer : ReadAnswer) : Int × Buf :=
  if buf.count = PROT_MAX_BUFFER_LENGTH then (-ENOBUFS, buf)
  else
    match answer with
    | .error e => (-e.val, buf)
    | .data bytes =>
      let bytes := bytes.take (PROT_MAX_BUFFER_LENGTH - buf.count)
      (bytes.length,
       { buf with
         count := buf.count + bytes.length, content := writeCells buf.content buf.count bytes })

def protCanRead (prot : Prot) : Bool := prot.inbuf.count < PROT_MAX_BUFFER_LENGTH

def protRead (prot : Prot) (answer : ReadAnswer) : Int × Prot :=
  let (rc, inbuf) := inbufRead prot.inbuf answer
  (rc, { prot with inbuf })

def protNext (prot : Prot) : Prot :=
  if prot.fields.count ≥ 0 then
    { prot with inbuf := bufCrop prot.inbuf, fields := { prot.fields with count := -1 } }
  else prot

/-- The first half of a turn of `prot_get`: the fields of a record are obtained, unless they
already are. A negative code is what `prot_get` returns for lack of a record. -/
def protDecode (prot : Prot) : Int × Prot :=
  if prot.fields.count < 0 then
    let (found, inbuf) := bufScanEndRecord prot.inbuf
    let prot := { prot with inbuf }
    if found then
      let (inbuf, fields) := bufGetFields prot.inbuf prot.fields
      (0, { prot with inbuf, fields })
    else (if protCanRead prot then -EAGAIN else -EMSGSIZE, prot)
  else (0, prot)

/-- The loop of `prot_get`. Each turn that goes on drops a byte, so it turns at most once more
than there are bytes. -/
def protGetLoop : Nat → Prot → Int × Prot
  | 0, prot => (-EAGAIN, prot)
  | n + 1, prot =>
    let (rc, prot) := protDecode prot
    if rc < 0 then (rc, prot)
    else if prot.fields.count = 0 ∧ ¬ prot.allowEmpty then protGetLoop n (protNext prot)
    else (prot.fields.count, prot)

def protGet (prot : Prot) : Int × Prot := protGetLoop (prot.inbuf.count + 1) prot

/-- The fields that `prot_get` reports, read as C strings. -/
def protArgs (prot : Prot) : List CStr :=
  (List.range prot.fields.count.toNat).map fun i =>
    let field := prot.fields.fields i
    .ofBytes (cells prot.inbuf.content field (PROT_MAX_BUFFER_LENGTH - field))

/-- What the allocation of `prot_create` holds: the bytes of the two contents and the pointers. -/
structure ProtMem where
  inbytes : Nat → UInt8
  outbytes : Nat → UInt8
  pointers : Nat → Nat

/-- `prot_reset`, after the allocation of `prot_create`. -/
def protReset (mem : ProtMem) : Prot :=
  { inbuf := ⟨0, 0, mem.inbytes⟩, outbuf := ⟨0, 0, mem.outbytes⟩, outfields := 0, wrokcnt := 0,
    allowEmpty := false, fields := ⟨-1, mem.pointers⟩ }

end SecLsmManager
