import SecLsmManager.Library.Library
import SecLsmManager.Client.Reply
import SecLsmManager.Protocol.Putx
import Mathlib.Logic.Relation

/-!
# A handle and its session

The client library and a client of the server, joined by two FIFO channels of bytes. The up channel
is what the server has not read yet, `Client.input`; the down channel is `Joint.down`. A step is a
turn of a call or of the loop of `client_process_input`, in any order, and moves any number of the
bytes of a channel.
-/

namespace SecLsmManager

open Lib

variable {σ : Type*} {permgr : PermMgr σ} {mac : Mac σ}

/-- A handle and its session. -/
structure Joint (σ : Type*) where
  library : Library
  server : Client σ
  /-- the bytes that the server has written and the library has not read yet -/
  down : List UInt8
  /-- the requests that the server has taken, and what it has written for each -/
  answered : List (List CStr × List UInt8)

namespace Joint

/-- The channels are reliable: the empty write of `ensure_opened` succeeds. -/
def start (j : Joint σ) (call : ApiCall) (opening : Int × Handle) : Joint σ :=
  { j with library := j.library.start call opening true }

/-- A turn of `flushw` in the library. -/
def flush (j : Joint σ) (trace : Trace) (put : Bool) (answer : OutAnswer) : Joint σ :=
  let (library, bytes) := j.library.flush trace put answer
  { j with library, server := { j.server with input := j.server.input ++ bytes } }

def next (j : Joint σ) (trace : Trace) : Joint σ := { j with library := j.library.next trace }

/-- A read of at most `n + 1` bytes, or `EAGAIN`. -/
def read (j : Joint σ) (trace : Trace) (cut : Option Nat) : Joint σ :=
  let answer : ReadAnswer :=
    match cut with
    | none => .error EAGAIN_ERRNO
    | some n => .data (j.down.take (n + 1))
  let (library, count) := j.library.read trace ⟨answer, none⟩
  { j with library, down := j.down.drop count }

/-- A turn of the loop on the pending requests. -/
def take (permgr : PermMgr σ) (mac : Mac σ) (j : Joint σ) : Joint σ :=
  let (rc, prot) := protGet j.server.prot
  let server := j.server.take permgr mac
  let bytes := server.sent.drop j.server.sent.length
  { j with
    server
    down := j.down ++ bytes
    answered := if rc > 0 then j.answered ++ [(protArgs prot, bytes)] else j.answered }

/-- A read of the server, of at most `n + 1` bytes. -/
def receive (j : Joint σ) (n : Nat) : Joint σ := { j with server := (j.server.read (some n)).2 }

end Joint

/-- The steps of a handle and its session. No call begins after a violation of the protocol, and
the server reads when it has no record to take. -/
inductive Joint.Step (permgr : PermMgr σ) (mac : Mac σ) : Joint σ → Joint σ → Prop
  | start {j : Joint σ} (call : ApiCall) (opening : Int × Handle) : j.library.doing = .idle →
      j.server.invalid = false → Step permgr mac j (j.start call opening)
  | flush {j : Joint σ} {trace : Trace} {put : Bool} {answer : OutAnswer} :
      j.library.doing = .runs trace (.flush put) → answer.Accepts →
      Step permgr mac j (j.flush trace put answer)
  | next {j : Joint σ} {trace : Trace} : j.library.doing = .runs trace .next →
      Step permgr mac j (j.next trace)
  | read {j : Joint σ} {trace : Trace} (cut : Option Nat) :
      j.library.doing = .runs trace .read → (cut ≠ none → j.down ≠ []) →
      Step permgr mac j (j.read trace cut)
  | take {j : Joint σ} : j.server.invalid = false → Step permgr mac j (j.take permgr mac)
  | receive {j : Joint σ} (n : Nat) : j.server.invalid = false →
      (protGet j.server.prot).1 = -EAGAIN → j.server.input ≠ [] →
      Step permgr mac j (j.receive n)

/-! ## A record in a channel -/

/-- A handler that waits for a record or still holds the last one, with `b` buffered behind it. -/
def Buffered (p : Prot) (b : List UInt8) : Prop :=
  Pending p b ∨ ∃ line, line ≠ [] ∧ Holding p line b

theorem Buffered.next {p : Prot} {b : List UInt8} (h : Buffered p b) :
    Pending (protNext p) b ∧ SameOutput p (protNext p) := by
  rcases h with h | ⟨line, -, h⟩
  · rw [h.next]
    exact ⟨h, .refl p⟩
  · exact h.next

theorem Pending.congr {p p' : Prot} {b : List UInt8} (h : Pending p b) (hs : SameInput p p') :
    Pending p' b where
  waiting := hs.2.1 ▸ h.waiting
  count_le := hs.1 ▸ h.count_le
  pos_le := hs.1 ▸ h.pos_le
  bytes := hs.1 ▸ h.bytes
  scanned := hs.1 ▸ h.scanned

theorem Buffered.congr {p p' : Prot} {b : List UInt8} (h : Buffered p b) (hs : SameInput p p') :
    Buffered p' b := by
  rcases h with h | ⟨line, hline, h⟩
  · exact Or.inl (h.congr hs)
  · exact Or.inr ⟨line, hline, h.congr hs⟩

/-- An empty buffer has no record. -/
theorem protGet_nil {p : Prot} (h : Pending p []) (he : p.allowEmpty = false) :
    ∃ p', SameOutput p p' ∧ protGet p = (-EAGAIN, p') ∧ Pending p' [] := by
  obtain ⟨k, p', hout, ⟨line, b', heq, -⟩ | ⟨b', heq, -, hget, hp⟩⟩ := protGet_spec h he
  · simp at heq
  · obtain ⟨-, rfl⟩ := List.append_eq_nil_iff.1 heq.symm
    exact ⟨p', hout, hget, hp⟩

/-- `prot_get` on a part of a line waits. -/
theorem protGet_part {p : Prot} {b : List UInt8} (h : Pending p b) (he : p.allowEmpty = false)
    (hno : protMarks.NoEnd b) (hlen : b.length < PROT_MAX_BUFFER_LENGTH) :
    ∃ p', SameOutput p p' ∧ protGet p = (-EAGAIN, p') ∧ Pending p' b := by
  -- a line of the buffer would have an end that is not escaped
  have hfirst : ∀ {k : Nat} {l : List UInt8}, b = List.replicate k PROT_RECORD_SEPARATOR ++ l →
      k = 0 := by
    intro k l heq
    cases k with
    | zero => rfl
    | succ k => exact absurd (hno [] _ heq) (by simp)
  obtain ⟨k, p', hout, ⟨line, b', heq, -, hbody, -⟩ | ⟨b', heq, -, hget, hp⟩⟩ := protGet_spec h he
  · obtain rfl := hfirst heq
    exact absurd (hno line b' heq) (by simp [hbody.escaped])
  · obtain rfl := hfirst heq
    obtain rfl : b = b' := heq
    rw [waitCode, if_pos hlen] at hget
    exact ⟨p', hout, hget, hp⟩

/-- **`prot_get` on the beginning of a record and what follows it.** It takes the record, or waits
for the rest of it, with room for more in the buffer. -/
theorem protGet_record {p : Prot} {b rest more : List UInt8} (r : Record)
    (hfit : Fits r.fields) (h : Pending p b) (he : p.allowEmpty = false)
    (heq : b ++ rest = encode r.fields ++ more) :
    ∃ p', SameOutput p p' ∧
      ((∃ line b', line ≠ [] ∧ report line = r.fields ∧ b' ++ rest = more ∧
          protGet p = (((reported line).length : Int), p') ∧ Holding p' line b') ∨
        (protGet p = (-EAGAIN, p') ∧ Pending p' b ∧ b.length < PROT_MAX_BUFFER_LENGTH ∧
          rest ≠ [])) := by
  let line := protMarks.encodeFields (r.fields.map CStr.bytes)
  have hline : encode r.fields = line ++ [PROT_RECORD_SEPARATOR] := rfl
  have hbody : protMarks.Body line := protMarks.body_encodeFields _
  rw [hline, List.append_assoc, List.singleton_append] at heq
  have hshort : line.length < PROT_MAX_BUFFER_LENGTH := by
    have hlen : (encode r.fields).length ≤ PROT_MAX_BUFFER_LENGTH := hfit
    rw [hline, List.length_append, List.length_singleton] at hlen
    omega
  have hwait : ∀ as, line = b ++ as → rest = as ++ PROT_RECORD_SEPARATOR :: more →
      ∃ p', SameOutput p p' ∧ protGet p = (-EAGAIN, p') ∧ Pending p' b ∧
        b.length < PROT_MAX_BUFFER_LENGTH ∧ rest ≠ [] := by
    intro as has hrest
    have hno : protMarks.NoEnd b := hbody.noEnd.of_isPrefix _ ⟨as, has.symm⟩
    have hle : b.length ≤ line.length := by
      rw [has, List.length_append]
      exact Nat.le_add_right _ _
    have hroom := Nat.lt_of_le_of_lt hle hshort
    obtain ⟨p', hout, hget, hp⟩ := protGet_part h he hno hroom
    exact ⟨p', hout, hget, hp, hroom, by simp [hrest]⟩
  obtain ⟨as, has, hrest⟩ | ⟨bs, hbs, hmore⟩ := List.append_eq_append_iff.1 heq
  · obtain ⟨p', hout, hall⟩ := hwait as has hrest
    exact ⟨p', hout, Or.inr hall⟩
  · cases bs with
    | nil =>
      have hline : line = b ++ [] := by rw [hbs, List.append_nil, List.append_nil]
      obtain ⟨p', hout, hall⟩ := hwait [] hline hmore.symm
      exact ⟨p', hout, Or.inr hall⟩
    | cons c b' =>
      obtain ⟨rfl, rfl⟩ := List.cons.inj hmore
      subst hbs
      obtain ⟨p', hout, hget, hhold⟩ := protGet_line (k := 0) h he hbody r.text_ne_nil
      exact ⟨p', hout, Or.inl ⟨line, b', r.text_ne_nil, r.report, rfl, hget, hhold⟩⟩

/-! ## The sending of a request -/

/-- The loop of `send_fields` fills the fields as `prot_put_fields` does. -/
theorem putFieldsLoop_eq (p : Prot) (fields : List CStr) :
    putFieldsLoop p fields = protPutFields p fields := by
  rw [← putxLoop_eq]
  induction fields generalizing p with
  | nil => rfl
  | cons field fields ih =>
    rw [putFieldsLoop, putxLoop]
    simp only [ih]

/-- A trial of `send_fields` is `prot_put`. -/
theorem sendTrial_eq (p : Prot) (fields : List CStr) :
    sendTrial p fields = protPut p fields := by
  rw [sendTrial, protPut, putFieldsLoop_eq]
  simp only [ne_eq, ite_not]

/-- A record is put in an empty buffer when it fits. -/
theorem sendTrial_spec {p : Prot} (h : OutIdle p []) {fields : List CStr} (hne : fields ≠ []) :
    (Fits fields ∧ ∃ p', sendTrial p fields = (0, p') ∧ OutIdle p' (encode fields) ∧
        SameInput p p') ∨
      (¬ Fits fields ∧ ∃ p', sendTrial p fields = (-ECANCELED, p') ∧ OutIdle p' [] ∧
        SameInput p p') := by
  rw [sendTrial_eq]
  rcases protPut_spec h hne with ⟨hroom, hput⟩ | ⟨hlong, hput⟩
  · rw [List.length_nil, Nat.zero_add] at hroom
    exact Or.inl ⟨hroom, hput⟩
  · rw [List.length_nil, Nat.zero_add] at hlong
    exact Or.inr ⟨not_le.2 hlong, hput⟩

/-! ## The taking of a request -/

/-- A client of the server between two turns, with `b` buffered and nothing to write. -/
structure Client.Rests (c : Client σ) (b : List UInt8) : Prop where
  pending : Pending c.prot b
  idle : OutIdle c.prot []
  accepting : c.Accepting

/-- A turn of a client with nothing buffered. -/
theorem Client.Rests.take_nil (permgr : PermMgr σ) (mac : Mac σ) {c : Client σ} (h : c.Rests []) :
    (c.take permgr mac).Rests [] ∧ (c.take permgr mac).input = c.input ∧
      (c.take permgr mac).sent = c.sent ∧ (protGet c.prot).1 < 0 := by
  obtain ⟨p, hout, hget, hp⟩ := protGet_nil h.pending h.idle.no_empty
  have hneg : -EAGAIN < 0 := by decide
  rw [Client.take_none hget hneg, hget]
  exact ⟨⟨hp, h.idle.congr hout, h.accepting⟩, rfl, rfl, hneg⟩

/-- **A turn of a client that gets a request.** It takes the whole request and gives the reply, or
waits for the rest of it. -/
theorem Client.Rests.take_request (permgr : PermMgr σ) (mac : Mac σ) {c : Client σ}
    {b rest : List UInt8} (h : c.Rests b) (r : Record) (hfit : Fits r.fields)
    (heq : b ++ rest = encode r.fields) :
    (c.take permgr mac).input = c.input ∧
    ((∃ strings last, rest = [] ∧ (c.take permgr mac).Rests [] ∧
        (c.take permgr mac).sent = c.sent ++ (strings ++ [last]).flatMap encode ∧
        (∀ fields ∈ strings, Shown fields) ∧ (strings ≠ [] → r.fields = [wordDisplay]) ∧
        Ending last ∧ (protGet c.prot).1 > 0 ∧ protArgs (protGet c.prot).2 = r.fields) ∨
      ((c.take permgr mac).Rests b ∧ (c.take permgr mac).sent = c.sent ∧
        (c.take permgr mac).invalid = c.invalid ∧ (protGet c.prot).1 = -EAGAIN ∧
        b.length < PROT_MAX_BUFFER_LENGTH ∧ rest ≠ [])) := by
  have hneg : -EAGAIN < 0 := by decide
  rw [← List.append_nil (encode r.fields)] at heq
  obtain ⟨p, hout, ⟨line, b', hline, hreport, hrest, hget, hhold⟩ |
      ⟨hget, hp, hroom, hsome⟩⟩ := protGet_record r hfit h.pending h.idle.no_empty heq
  · obtain ⟨rfl, rfl⟩ := List.append_eq_nil_iff.1 hrest
    have hidle : OutIdle ({ c with prot := p } : Client σ).prot [] := h.idle.congr hout
    obtain ⟨strings, last, hg⟩ := onrequest_given permgr mac (c := { c with prot := p }) hidle
      h.accepting r.ne_nil
    have hinput := onrequest_input permgr mac (c := { c with prot := p }) hidle r.ne_nil
    have hnext := (hhold.congr hg.puts.same).next
    have hsent := hg.puts.stream
    rw [List.append_nil, List.append_nil] at hsent
    have hpos : (protGet c.prot).1 > 0 := by
      rw [hget]
      exact Int.natCast_pos.2 (reported_length_pos hline)
    have hargs : protArgs (protGet c.prot).2 = r.fields := by
      rw [hget, ← hreport]
      exact hhold.args
    rw [Client.take_record hline hget hhold, hreport]
    exact ⟨hinput, Or.inl ⟨strings, last, rfl, ⟨hnext.1, hg.puts.idle.congr hnext.2,
      hg.puts.accepting h.accepting⟩, hsent, hg.shown, hg.display, hg.last, hpos, hargs⟩⟩
  · rw [Client.take_none hget hneg, hget]
    exact ⟨rfl, Or.inr ⟨⟨hp, h.idle.congr hout, h.accepting⟩, rfl, rfl, rfl, hroom, hsome⟩⟩

/-- A read of a client. -/
theorem Client.Rests.read {c : Client σ} {b : List UInt8} (h : c.Rests b) (n : Nat) :
    ∃ x, x ++ (c.read (some n)).2.input = c.input ∧ (c.read (some n)).2.Rests (b ++ x) ∧
      (b.length < PROT_MAX_BUFFER_LENGTH → x = [] → c.input = []) := by
  obtain ⟨x, hx, hp, -, hcode⟩ := h.pending.readInput c.input n
  have hout := protRead_sameOutput c.prot (.data (c.input.take (n + 1)))
  exact ⟨x, hx, ⟨hp, h.idle.congr hout, h.accepting⟩, fun hroom => (hcode hroom).2⟩

end SecLsmManager
