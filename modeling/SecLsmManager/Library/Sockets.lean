import SecLsmManager.Lib.Ledger
import SecLsmManager.Library.Greeting

/-!
# The sockets of a handle

The calls of the API on a handle with its descriptor: which sockets are opened, and when they are
closed. `disconnection` closes the socket of a handle whose state is connected. That state is set
at the end of the hand-shake, so the socket of a hand-shake that fails stays open
(`owns_iff_accepted`).
-/

namespace SecLsmManager

open Lib

/-- A handle with its descriptor, the ledger of the sockets that it has opened and closed, and the
answers of the system that are still to come in the call. -/
structure Sockets where
  handle : Handle
  fd : Nat
  ledger : Ledger
  outs : List OutAnswer
  ins : List InAnswer

/-- What happens in a call: whether the socket is opened, whether the empty write succeeds, the
answers of the system and a bound for the turns of each loop. -/
structure Script where
  opening : Option Errno
  alive : Bool
  outs : List OutAnswer
  ins : List InAnswer
  fuel : Nat

namespace Sockets

/-- `sec_lsm_manager_create`. -/
def create (mem : ProtMem) : Sockets where
  handle := ⟨protReset mem, false, .disconnected, []⟩
  fd := 0
  ledger := .empty
  outs := []
  ins := []

def disconnection (s : Sockets) (state : ConnectionState) : Sockets :=
  { s with
    ledger := if s.handle.state = .connected then s.ledger.release s.fd else s.ledger
    handle := { s.handle with state } }

/-- A code, or that of the `poll` that follows it when it is `EAGAIN`. -/
def polled (poll : Option Errno) (rc : Int) : Int :=
  if rc = -EAGAIN then poll.elim 0 (- ·.val) else rc

/-- The loop of `flushw`; `none` if it does not end with the answers. -/
def flushLoop (s : Sockets) : List OutAnswer → Option (Int × Sockets)
  | [] => if protShouldWrite s.handle.prot then none else some (0, { s with outs := [] })
  | answer :: outs =>
    if protShouldWrite s.handle.prot then
      let (rc, prot, _) := protWrite s.handle.prot answer.write
      let s := { s with handle := { s.handle with prot } }
      let rc := polled answer.poll rc
      if rc < 0 then some (rc, { s with outs }) else flushLoop s outs
    else some (0, { s with outs := answer :: outs })

def flushw (s : Sockets) : Option (Int × Sockets) := flushLoop s s.outs

/-- A trial of `send_fields` to put the fields. -/
def put (s : Sockets) (fields : List CStr) : Int × Sockets :=
  let (rc, prot) := sendTrial s.handle.prot fields
  (rc, { s with handle := { s.handle with prot } })

def sendFields (s : Sockets) (fields : List CStr) : Option (Int × Sockets) :=
  let (rc, s) := s.put fields
  if rc = 0 then s.flushw
  else do
    let (rc, s) ← s.flushw
    if rc ≠ 0 then some (rc, s)
    else
      let (rc, s) := s.put fields
      if rc = 0 then s.flushw else some (rc, s)

/-- The loop of `wait_reply` on `prot_read`: zero for `goto disconnect`. -/
def readLoop (s : Sockets) : List InAnswer → Option (Int × Sockets)
  | [] => none
  | answer :: ins =>
    let (rc, prot) := protRead s.handle.prot answer.read
    let s := { s with handle := { s.handle with prot }, ins }
    if rc > 0 then some (rc, s)
    else if rc = 0 then some (0, s)
    else
      let rc := polled answer.poll rc
      if rc < 0 then some (rc, s) else readLoop s ins

/-- `wait_reply` in at most `fuel` turns. It never returns 0, so that `wait_any_reply` is the
same. -/
def waitReply : Nat → Sockets → Option (Int × Sockets)
  | 0, _ => none
  | fuel + 1, s =>
    let (rc, prot) := protGet (protNext s.handle.prot)
    let s := { s with handle := { s.handle with prot } }
    if rc > 0 then some (rc, { s with handle := { s.handle with reply := protArgs prot } })
    else if rc = -EMSGSIZE then some (-EPIPE, s.disconnection .broken)
    else if rc < 0 then do
      let (rc, s) ← s.readLoop s.ins
      if rc > 0 then waitReply fuel s
      else if rc = 0 then some (-EPIPE, s.disconnection .broken)
      else some (rc, s)
    else waitReply fuel s

/-- What `connection` does once the socket is opened. -/
def handshake (fuel : Nat) (s : Sockets) : Option (Int × Sockets) := do
  let (rc, s) ← s.sendFields greeting
  if rc ≥ 0 then
    let (rc, s) ← waitReply fuel s
    if rc ≥ 0 then
      if s.handle.reply.length ≥ 2 ∧ s.handle.reply[0]? = some wordDone ∧
          s.handle.reply[1]? = some PROTOCOL_VERSION_1_STRING then
        some (0, { s with handle := { s.handle with state := .connected } })
      else some (-EPROTO, s.disconnection .broken)
    else some (rc, s.disconnection .broken)
  else some (rc, s.disconnection .broken)

/-- The beginning of `connection`: the handle is reset. -/
def reset (s : Sockets) : Sockets :=
  let prot := s.handle.prot
  let mem := ⟨prot.inbuf.content, prot.outbuf.content, prot.fields.fields⟩
  { s with handle := { s.handle with reply := [], prot := protReset mem } }

/-- `socket_open` gives a descriptor. -/
def opened (s : Sockets) : Sockets :=
  { s with fd := s.ledger.acquired, ledger := s.ledger.acquire }

def connection (script : Script) (s : Sockets) : Option (Int × Sockets) :=
  match script.opening with
  | some e => some (-e.val, s.reset)
  | none => handshake script.fuel s.reset.opened

def ensureOpened (script : Script) (s : Sockets) : Option (Int × Sockets) :=
  match s.handle.state with
  | .disconnected => s.connection script
  | .connected => some (if script.alive then (0, s) else (-EPIPE, s.disconnection .broken))
  | .broken => some (-EPIPE, s)

/-- The function `aftersend` of a call, in at most `turns` replies. -/
def aftersend (call : ApiCall) (fuel : Nat) : Nat → Sockets → Option (Int × Sockets)
  | 0, _ => none
  | turns + 1, s => do
    let (rc, s) ← waitReply fuel s
    match call.aftersend s.handle.reply rc with
    | some rc => some (rc, s)
    | none => aftersend call fuel turns s

/-- `sync_process` takes the lock; the answers are those of the script. -/
def lock (script : Script) (s : Sockets) : Sockets :=
  { s with
    handle := { s.handle with synclock := true }, outs := script.outs, ins := script.ins }

/-- What `sync_process` does on the code of `ensure_opened`. -/
def process (call : ApiCall) (script : Script) (rc : Int) (s : Sockets) :
    Option (Int × Sockets) :=
  if rc ≥ 0 then do
    let (rc, s) ← s.sendFields call.fields
    if rc ≥ 0 then s.aftersend call script.fuel script.fuel else some (rc, s)
  else some (rc, s)

def syncProcess (call : ApiCall) (script : Script) (s : Sockets) : Option (Int × Sockets) :=
  if s.handle.synclock then some (-EBUSY, s)
  else do
    let (rc, s) ← (s.lock script).ensureOpened script
    let (rc, s) ← s.process call script rc
    some (rc, { s with handle := { s.handle with synclock := false } })

/-- `sec_lsm_manager_destroy`. -/
def destroy (s : Sockets) : Sockets := s.disconnection .broken

/-- A call of the API. -/
inductive Event
  | call (call : ApiCall) (script : Script)
  | disconnect

/-- The handle after a call; `none` if the call does not return. -/
def step (s : Sockets) : Event → Option Sockets
  | .call call script => (s.syncProcess call script).map Prod.snd
  | .disconnect => some (s.disconnection .disconnected)

/-! ## What a call does to the socket -/

/-- The handle has the same socket, in the same state. -/
structure Same (s s' : Sockets) : Prop where
  fd : s'.fd = s.fd
  ledger : s'.ledger = s.ledger
  state : s'.handle.state = s.handle.state

/-- A handle has the socket that it has. -/
theorem Same.refl (s : Sockets) : Same s s := ⟨rfl, rfl, rfl⟩

/-- The same socket over two steps is the same over both. -/
theorem Same.trans {s s' s'' : Sockets} (h : Same s s') (h' : Same s' s'') : Same s s'' :=
  ⟨h'.fd.trans h.fd, h'.ledger.trans h.ledger, h'.state.trans h.state⟩

/-- Two handles with the same socket have the same one after the same disconnection. -/
theorem Same.disconnection {s s' : Sockets} (h : Same s s') (state : ConnectionState) :
    Same (s.disconnection state) (s'.disconnection state) where
  fd := h.fd
  ledger := by simp only [Sockets.disconnection, h.state, h.ledger, h.fd]
  state := rfl

/-- The disconnection of a handle that is not connected closes nothing. -/
theorem disconnection_of_ne {s : Sockets} (h : s.handle.state ≠ .connected)
    (state : ConnectionState) : (s.disconnection state).ledger = s.ledger := if_neg h

/-- The handle has the same socket, or has broken the connection. -/
def Kept (s s' : Sockets) : Prop := Same s s' ∨ Same (s.disconnection .broken) s'

/-- A connection that is broken stays broken, and its socket is closed once. -/
theorem Kept.trans {s s' s'' : Sockets} (h : Kept s s') (h' : Kept s' s'') : Kept s s'' := by
  obtain h | h := h
  · obtain h' | h' := h'
    · exact .inl (h.trans h')
    · exact .inr ((h.disconnection .broken).trans h')
  · obtain h' | h' := h'
    · exact .inr (h.trans h')
    · have hbroken : (s.disconnection .broken).handle.state ≠ .connected := nofun
      have htwice :
          Same (s.disconnection .broken) ((s.disconnection .broken).disconnection .broken) :=
        ⟨rfl, disconnection_of_ne hbroken _, rfl⟩
      exact .inr (htwice.trans ((h.disconnection .broken).trans h'))

/-- Writing does not open or close a socket, whatever `writev` answers. -/
theorem flushLoop_same {outs : List OutAnswer} {s s' : Sockets} {rc : Int}
    (h : s.flushLoop outs = some (rc, s')) : Same s s' := by
  induction outs generalizing s with
  | nil =>
    rw [flushLoop] at h
    split at h
    · cases h
    · cases h
      exact ⟨rfl, rfl, rfl⟩
  | cons answer outs ih =>
    rw [flushLoop] at h
    split at h
    · simp only at h
      split at h
      · cases h
        exact ⟨rfl, rfl, rfl⟩
      · have hrest := ih h
        exact ⟨hrest.fd, hrest.ledger, hrest.state⟩
    · cases h
      exact ⟨rfl, rfl, rfl⟩

/-- Nor does sending a record. -/
theorem sendFields_same {fields : List CStr} {s s' : Sockets} {rc : Int}
    (h : s.sendFields fields = some (rc, s')) : Same s s' := by
  have hput : ∀ s : Sockets, Same s (s.put fields).2 := fun s => ⟨rfl, rfl, rfl⟩
  simp only [sendFields] at h
  split at h
  · exact (hput s).trans (flushLoop_same h)
  · obtain ⟨⟨rc₁, s₁⟩, hflush, h⟩ := Option.bind_eq_some_iff.1 h
    have hsame := (hput s).trans (flushLoop_same hflush)
    simp only at h
    split at h
    · cases h
      exact hsame
    · split at h
      · exact (hsame.trans (hput s₁)).trans (flushLoop_same h)
      · cases h
        exact hsame.trans (hput s₁)

/-- Nor does reading one, whatever `readv` answers. -/
theorem readLoop_same {ins : List InAnswer} {s s' : Sockets} {rc : Int}
    (h : s.readLoop ins = some (rc, s')) : Same s s' := by
  induction ins generalizing s with
  | nil => cases h
  | cons answer ins ih =>
    rw [readLoop] at h
    simp only at h
    split at h
    · cases h
      exact ⟨rfl, rfl, rfl⟩
    · split at h
      · cases h
        exact ⟨rfl, rfl, rfl⟩
      · split at h
        · cases h
          exact ⟨rfl, rfl, rfl⟩
        · have hrest := ih h
          exact ⟨hrest.fd, hrest.ledger, hrest.state⟩

/-- Waiting for a reply keeps the socket, or breaks the connection when the peer is gone. -/
theorem waitReply_kept {fuel : Nat} {s s' : Sockets} {rc : Int}
    (h : waitReply fuel s = some (rc, s')) : Kept s s' := by
  induction fuel generalizing s with
  | zero => cases h
  | succ fuel ih =>
    rw [waitReply] at h
    simp only at h
    -- the reply is looked for
    have hget : ∀ prot, Same s { s with handle := { s.handle with prot } } :=
      fun _ => ⟨rfl, rfl, rfl⟩
    split at h
    · cases h
      exact .inl ⟨rfl, rfl, rfl⟩
    · split at h
      · cases h
        exact .inr ((hget _).disconnection .broken)
      · split at h
        · obtain ⟨⟨rc₁, s₁⟩, hread, h⟩ := Option.bind_eq_some_iff.1 h
          have hsame := (hget _).trans (readLoop_same hread)
          simp only at h
          split at h
          · exact Kept.trans (.inl hsame) (ih h)
          · split at h
            · cases h
              exact .inr (hsame.disconnection .broken)
            · cases h
              exact .inl hsame
        · exact Kept.trans (.inl (hget _)) (ih h)

/-- So do the turns of the loop that reads the replies to a call. -/
theorem aftersend_kept {call : ApiCall} {fuel turns : Nat} {s s' : Sockets} {rc : Int}
    (h : aftersend call fuel turns s = some (rc, s')) : Kept s s' := by
  induction turns generalizing s with
  | zero => cases h
  | succ turns ih =>
    rw [aftersend] at h
    obtain ⟨⟨rc₁, s₁⟩, hwait, h⟩ := Option.bind_eq_some_iff.1 h
    have hkept := waitReply_kept hwait
    simp only at h
    split at h
    · cases h
      exact hkept
    · exact hkept.trans (ih h)

/-- So does all that a call does once the handle is opened. -/
theorem process_kept {call : ApiCall} {script : Script} {s s' : Sockets} {rc rc' : Int}
    (h : s.process call script rc = some (rc', s')) : Kept s s' := by
  rw [process] at h
  split at h
  · obtain ⟨⟨rc₁, s₁⟩, hsend, h⟩ := Option.bind_eq_some_iff.1 h
    have hsent : Kept s s₁ := .inl (sendFields_same hsend)
    simp only at h
    split at h
    · exact hsent.trans (aftersend_kept h)
    · cases h
      exact hsent
  · cases h
    exact .inl (.refl s)

/-- A hand-shake that fails leaves the socket as it is, and the state broken. -/
theorem handshake_spec {fuel : Nat} {s s' : Sockets} {rc : Int} (hs : s.handle.state ≠ .connected)
    (h : handshake fuel s = some (rc, s')) : s'.fd = s.fd ∧ s'.ledger = s.ledger ∧
      (rc = 0 ∧ s'.handle.state = .connected ∨ rc < 0 ∧ s'.handle.state = .broken) := by
  have kept : ∀ {s₁}, Kept s s₁ → s₁.fd = s.fd ∧ s₁.ledger = s.ledger ∧
      s₁.handle.state ≠ .connected := by
    rintro s₁ (hsame | hsame)
    · exact ⟨hsame.fd, hsame.ledger, hsame.state ▸ hs⟩
    · exact ⟨hsame.fd, hsame.ledger.trans (disconnection_of_ne hs _), hsame.state ▸ nofun⟩
  have broken : ∀ {s₁ : Sockets} {rc : Int}, Kept s s₁ → rc < 0 →
      (s₁.disconnection .broken).fd = s.fd ∧ (s₁.disconnection .broken).ledger = s.ledger ∧
        (rc = 0 ∧ (s₁.disconnection .broken).handle.state = .connected ∨
          rc < 0 ∧ (s₁.disconnection .broken).handle.state = .broken) := by
    intro s₁ rc hkept hrc
    obtain ⟨hfd, hledger, hstate⟩ := kept hkept
    exact ⟨hfd, (disconnection_of_ne hstate _).trans hledger, .inr ⟨hrc, rfl⟩⟩
  obtain ⟨⟨rc₁, s₁⟩, hsend, h⟩ := Option.bind_eq_some_iff.1 h
  have hsent : Kept s s₁ := .inl (sendFields_same hsend)
  simp only at h
  split at h
  · obtain ⟨⟨rc₂, s₂⟩, hwait, h⟩ := Option.bind_eq_some_iff.1 h
    have hkept := hsent.trans (waitReply_kept hwait)
    simp only at h
    split at h
    · split at h
      · cases h
        obtain ⟨hfd, hledger, -⟩ := kept hkept
        exact ⟨hfd, hledger, .inl ⟨rfl, rfl⟩⟩
      · cases h
        exact broken hkept (by decide)
    · rename_i hneg
      cases h
      exact broken hkept (not_le.1 hneg)
  · rename_i hneg
    cases h
    exact broken hsent (not_le.1 hneg)

/-! ## Runs -/

/-- Between calls: the handle holds a socket if it is connected and none otherwise, no socket was
closed twice, and the destruction leaves none open. -/
structure Owned (s : Sockets) : Prop where
  held : s.ledger.held.length = if s.handle.state = .connected then 1 else 0
  once : s.ledger.released.Nodup
  destroyed : s.destroy.ledger.held = []
  destroyedOnce : s.destroy.ledger.released.Nodup

/-- The call opens a socket whose hand-shake fails. -/
def refused (s : Sockets) : Event → Bool
  | .call _ script => !s.handle.synclock && s.handle.state = .disconnected &&
      script.opening.isNone &&
      (handshake script.fuel (s.lock script).reset.opened).any fun r => r.1 < 0
  | .disconnect => false

/-- The handle after some calls; `none` if one does not return. -/
def run : List Event → Sockets → Option Sockets
  | [], s => some s
  | event :: events, s => s.step event >>= run events

/-- The count of the hand-shakes that fail in a run. -/
def failures : List Event → Sockets → Nat
  | [], _ => 0
  | event :: events, s =>
    (if s.refused event then 1 else 0) + (s.step event).elim 0 (failures events)

/-- The sockets are owned in all states of the run. -/
def Owns : List Event → Sockets → Prop
  | [], s => Owned s
  | event :: events, s => Owned s ∧ ∀ s', s.step event = some s' → Owns events s'

/-- No hand-shake of the run fails. -/
def Accepted : List Event → Sockets → Prop
  | [], _ => True
  | event :: events, s =>
    s.refused event = false ∧ ∀ s', s.step event = some s' → Accepted events s'

/-- The handle holds its socket if it is connected, and those of `left` hand-shakes. -/
structure Counts (s : Sockets) (left : Nat) : Prop where
  sound : s.ledger.Sound
  fd : s.handle.state = .connected → s.fd ∈ s.ledger.held
  count : s.ledger.held.length = (if s.handle.state = .connected then 1 else 0) + left

/-- The count is the same for a handle with the same socket. -/
theorem Counts.same {s s' : Sockets} {left : Nat} (h : s.Counts left) (hsame : Same s s') :
    s'.Counts left := by
  refine ⟨hsame.ledger ▸ h.sound, fun hs => ?_, ?_⟩
  · rw [hsame.fd, hsame.ledger]
    exact h.fd (hsame.state ▸ hs)
  · rw [hsame.ledger, hsame.state]
    exact h.count

/-- A disconnection closes the socket of a connected handle and no other one. -/
theorem Counts.disconnection {s : Sockets} {left : Nat} (h : s.Counts left)
    {state : ConnectionState} (hstate : state ≠ .connected) :
    (s.disconnection state).Counts left := by
  by_cases hs : s.handle.state = .connected
  · have hledger : (s.disconnection state).ledger = s.ledger.release s.fd := if_pos hs
    have hheld := h.sound.length_held_release (h.fd hs)
    rw [h.count, if_pos hs] at hheld
    refine ⟨hledger ▸ h.sound.release (h.fd hs), fun hc => absurd hc hstate, ?_⟩
    rw [hledger, show (s.disconnection state).handle.state = state from rfl, if_neg hstate]
    omega
  · have hledger := disconnection_of_ne hs state
    refine ⟨hledger ▸ h.sound, fun hc => absurd hc hstate, ?_⟩
    rw [hledger, show (s.disconnection state).handle.state = state from rfl, if_neg hstate,
      h.count, if_neg hs]

/-- The count is the same where the socket is kept, or the connection broken. -/
theorem Counts.kept {s s' : Sockets} {left : Nat} (h : s.Counts left) (hkept : Kept s s') :
    s'.Counts left := by
  obtain hsame | hsame := hkept
  · exact h.same hsame
  · have hbroken : ConnectionState.broken ≠ .connected := nofun
    exact (h.disconnection hbroken).same hsame

/-- A hand-shake on a socket just opened: it fails and leaves the socket, or not. -/
theorem Counts.handshake {s s' : Sockets} {left : Nat} (h : s.Counts left)
    (hs : s.handle.state ≠ .connected) {fuel : Nat} {rc : Int}
    (hrun : Sockets.handshake fuel s.opened = some (rc, s')) :
    s'.Counts (left + if rc < 0 then 1 else 0) := by
  obtain ⟨hfd, hledger, hend⟩ := handshake_spec (s := s.opened) hs hrun
  have hcount := h.sound.length_held_acquire
  have hheld : s'.fd ∈ s'.ledger.held := by
    rw [hfd, hledger]
    exact h.sound.mem_held_acquire
  refine ⟨hledger ▸ h.sound.acquire, fun _ => hheld, ?_⟩
  rw [hledger, show s.opened.ledger = s.ledger.acquire from rfl, hcount, h.count, if_neg hs]
  obtain ⟨rfl, hstate⟩ | ⟨hrc, hstate⟩ := hend
  · rw [hstate, if_pos rfl, if_neg (Int.lt_irrefl 0)]
    omega
  · rw [hstate, if_neg nofun, if_pos hrc]
    omega

/-- The opening of the socket, in a call on a handle that is not locked. -/
theorem Counts.ensureOpened {s s' : Sockets} {left : Nat} (h : s.Counts left)
    (hlock : s.handle.synclock = false) (call : ApiCall) {script : Script} {rc : Int}
    (hrun : (s.lock script).ensureOpened script = some (rc, s')) :
    s'.Counts (left + if s.refused (.call call script) then 1 else 0) := by
  have hlocked : (s.lock script).Counts left := h.same ⟨rfl, rfl, rfl⟩
  rw [Sockets.ensureOpened, show (s.lock script).handle.state = s.handle.state from rfl] at hrun
  cases hstate : s.handle.state with
  | disconnected =>
    rw [hstate] at hrun
    simp only [connection] at hrun
    cases hopening : script.opening with
    | some e =>
      rw [hopening] at hrun
      cases hrun
      simp only [refused, hopening, Option.isNone_some, Bool.and_false, Bool.false_and]
      exact hlocked.same ⟨rfl, rfl, rfl⟩
    | none =>
      rw [hopening] at hrun
      have hreset : (s.lock script).reset.Counts left := hlocked.same ⟨rfl, rfl, rfl⟩
      have hdisconnected : (s.lock script).reset.handle.state ≠ .connected := hstate ▸ nofun
      have hcounts := hreset.handshake hdisconnected hrun
      simpa [refused, hlock, hstate, hopening, hrun] using hcounts
  | connected =>
    rw [hstate] at hrun
    have hbroken : ConnectionState.broken ≠ .connected := nofun
    simp only [refused, hstate, reduceCtorEq, decide_false, Bool.and_false, Bool.false_and]
    simp only at hrun
    cases halive : script.alive with
    | true =>
      rw [halive] at hrun
      cases hrun
      exact hlocked
    | false =>
      rw [halive] at hrun
      cases hrun
      exact hlocked.disconnection hbroken
  | broken =>
    rw [hstate] at hrun
    simp only [refused, hstate, reduceCtorEq, decide_false, Bool.and_false, Bool.false_and]
    cases hrun
    exact hlocked

/-- What a call leaves: one socket more than before if its hand-shake fails. -/
theorem Counts.step {s s' : Sockets} {left : Nat} (h : s.Counts left) {event : Event}
    (hstep : s.step event = some s') :
    s'.Counts (left + if s.refused event then 1 else 0) := by
  cases event with
  | disconnect =>
    cases hstep
    exact h.disconnection nofun
  | call call script =>
    obtain ⟨⟨rc, s₀⟩, hsync, rfl⟩ := Option.map_eq_some_iff.1 hstep
    rw [syncProcess] at hsync
    split at hsync
    · rename_i hlock
      cases hsync
      simpa [refused, hlock] using h
    · rename_i hlock
      obtain ⟨⟨rc₁, s₁⟩, hopened, hsync⟩ := Option.bind_eq_some_iff.1 hsync
      have hcounts := h.ensureOpened (eq_false_of_ne_true hlock) call hopened
      obtain ⟨⟨rc₂, s₂⟩, hprocess, hsync⟩ := Option.bind_eq_some_iff.1 hsync
      cases hsync
      exact (hcounts.kept (process_kept hprocess)).same ⟨rfl, rfl, rfl⟩

/-- A run leaves one socket more for each of its hand-shakes that failed. -/
theorem Counts.run {events : List Event} {s s' : Sockets} {left : Nat} (h : s.Counts left)
    (hrun : s.run events = some s') : s'.Counts (left + s.failures events) := by
  induction events generalizing s left with
  | nil =>
    cases hrun
    exact h
  | cons event events ih =>
    obtain ⟨s₁, hstep, hrest⟩ := Option.bind_eq_some_iff.1 hrun
    have hcounts := ih (h.step hstep) hrest
    rw [failures, hstep, Option.elim_some, ← Nat.add_assoc]
    exact hcounts

/-- A call whose hand-shake fails returns. -/
theorem step_of_refused {s : Sockets} {event : Event} (h : s.refused event = true) :
    ∃ s', s.step event = some s' := by
  cases event with
  | disconnect => cases h
  | call call script =>
    simp only [refused, Bool.and_eq_true, Bool.not_eq_true', decide_eq_true_eq,
      Option.isNone_iff_eq_none, Option.any_eq_true] at h
    obtain ⟨⟨⟨hlock, hstate⟩, hopening⟩, ⟨rc, s₁⟩, hrun, hrc⟩ := h
    have hopened : (s.lock script).ensureOpened script = some (rc, s₁) := by
      rw [Sockets.ensureOpened, show (s.lock script).handle.state = s.handle.state from rfl, hstate]
      simp only [connection, hopening]
      exact hrun
    have hprocess : s₁.process call script rc = some (rc, s₁) := if_neg (not_le.2 hrc)
    simp [step, syncProcess, hlock, hopened, hprocess]

/-- A handle with no socket left behind owns its sockets. -/
theorem Counts.owned {s : Sockets} (h : s.Counts 0) : Owned s := by
  have hbroken : ConnectionState.broken ≠ .connected := nofun
  have hdestroyed : s.destroy.Counts 0 := h.disconnection hbroken
  exact
    { held := h.count
      once := h.sound.nodup
      destroyed := List.length_eq_zero_iff.1 hdestroyed.count
      destroyedOnce := hdestroyed.sound.nodup }

/-- With one left behind it does not: `sec_lsm_manager_destroy` closes one at most. -/
theorem Counts.not_owned {s : Sockets} {left : Nat} (h : s.Counts (left + 1)) : ¬ Owned s := by
  intro howned
  have hcount := h.count.symm.trans howned.held
  omega

/-- The sockets are owned at the start of a run where they are owned throughout. -/
theorem Owns.owned {events : List Event} {s : Sockets} (h : s.Owns events) : Owned s := by
  cases events with
  | nil => exact h
  | cons event events => exact h.1

/-- From a state with no socket left behind, the sockets are owned throughout exactly when no
hand-shake fails. -/
theorem Counts.owns_iff {s : Sockets} (h : s.Counts 0) (events : List Event) :
    s.Owns events ↔ s.Accepted events := by
  induction events generalizing s with
  | nil => exact iff_of_true h.owned trivial
  | cons event events ih =>
    rw [Owns, Accepted]
    cases hrefused : s.refused event with
    | true =>
      -- the call returns, and leaves a socket open
      obtain ⟨s', hstep⟩ := step_of_refused hrefused
      have hleft := h.step hstep
      rw [hrefused] at hleft
      refine iff_of_false (fun howns => hleft.not_owned (howns.2 s' hstep).owned) fun hacc => ?_
      cases hacc.1
    | false =>
      have hnext : ∀ s', s.step event = some s' → (s'.Owns events ↔ s'.Accepted events) := by
        intro s' hstep
        have hcounts := h.step hstep
        rw [hrefused] at hcounts
        exact ih hcounts
      exact ⟨fun howns => ⟨rfl, fun s' hstep => (hnext s' hstep).1 (howns.2 s' hstep)⟩,
        fun hacc => ⟨h.owned, fun s' hstep => (hnext s' hstep).2 (hacc.2 s' hstep)⟩⟩

/-- A new handle has no socket. -/
theorem counts_create (mem : ProtMem) : (create mem).Counts 0 := ⟨.empty, nofun, rfl⟩

/-- **What a run leaves.** After any run no socket was closed twice, and those that are open are the
one of a connected handle and those of the hand-shakes that failed. -/
theorem run_leaves (mem : ProtMem) (events : List Event) (s : Sockets)
    (h : (create mem).run events = some s) : s.ledger.released.Nodup ∧
      s.ledger.held.length =
        (if s.handle.state = .connected then 1 else 0) + (create mem).failures events := by
  have hcounts : s.Counts (0 + (create mem).failures events) := (counts_create mem).run h
  rw [Nat.zero_add] at hcounts
  exact ⟨hcounts.sound.nodup, hcounts.count⟩

/-- **When the sockets are owned.** In all states of a run the handle holds one socket if it is
connected and none otherwise, exactly when no hand-shake of the run fails. -/
theorem owns_iff_accepted (mem : ProtMem) (events : List Event) :
    (create mem).Owns events ↔ (create mem).Accepted events :=
  (counts_create mem).owns_iff events

/-- A call on a socket where each write fails. -/
def pipeBroken : Event :=
  .call .clear ⟨none, true, [⟨.error ⟨EPIPE, by decide⟩, none⟩], [], 1⟩

/-- The socket of the hand-shake stays open. -/
theorem not_owns_of_pipe : ¬ ∀ (mem : ProtMem) (events : List Event), (create mem).Owns events := by
  intro h
  have hacc := (owns_iff_accepted ⟨fun _ => 0, fun _ => 0, fun _ => 0⟩ [pipeBroken]).1 (h _ _)
  exact absurd hacc.1 (by decide +kernel)

end Sockets

end SecLsmManager
