import SecLsmManager.Library.Sockets
import Mathlib.Logic.Relation

/-!
# A call is a run of turns

`Sockets.syncProcess` takes a call from its beginning to its return; `Library` takes it turn by
turn. A call that returns is a run of turns, to the same handle and with the same code
(`syncProcess_turns`).
-/

namespace SecLsmManager

open Lib

/-- A turn of the call that the library is in. -/
inductive Library.Turn : Library → Library → Prop
  | flush {lib : Library} {trace : Trace} {put : Bool} (answer : OutAnswer) :
      lib.doing = .runs trace (.flush put) → Turn lib (lib.flush trace put answer).1
  | next {lib : Library} {trace : Trace} : lib.doing = .runs trace .next →
      Turn lib (lib.next trace)
  | read {lib : Library} {trace : Trace} (answer : InAnswer) : lib.doing = .runs trace .read →
      Turn lib (lib.read trace answer).1

abbrev Library.Turns : Library → Library → Prop := Relation.ReflTransGen Library.Turn

namespace Sockets

open Library (Turn Turns)

variable {s s' : Sockets} {rc : Int} {returned : List (Trace × Int)}

/-- The turns from a stage of a call, with its trace as it is then, lead to what `after` says. -/
def Leads (s : Sockets) (returned : List (Trace × Int)) (trace : Trace) (stage : Stage)
    (after : Trace → Library → Prop) : Prop :=
  ∃ trace' lib, trace'.call = trace.call ∧ after trace' lib ∧
    Turns ⟨s.handle, .runs trace stage, returned⟩ lib

/-- A turn, then what it leads to. -/
theorem Leads.head {trace : Trace} {stage stage₁ : Stage} {after : Trace → Library → Prop}
    (trace₁ : Trace)
    (hturn : Turn ⟨s.handle, .runs trace stage, returned⟩
      ⟨s'.handle, .runs trace₁ stage₁, returned⟩)
    (hcall : trace₁.call = trace.call) (h : s'.Leads returned trace₁ stage₁ after) :
    s.Leads returned trace stage after := by
  obtain ⟨trace', lib, hcall', hafter, hturns⟩ := h
  exact ⟨trace', lib, hcall'.trans hcall, hafter, .head hturn hturns⟩

/-- A turn that leads there at once. -/
theorem Leads.single {trace : Trace} {stage : Stage} {after : Trace → Library → Prop}
    {lib : Library} (trace₁ : Trace) (hturn : Turn ⟨s.handle, .runs trace stage, returned⟩ lib)
    (hcall : trace₁.call = trace.call) (hafter : after trace₁ lib) :
    s.Leads returned trace stage after :=
  ⟨trace₁, lib, hcall, hafter, .single hturn⟩

/-- `flushw`, in one turn for each answer and one more when all is written. -/
theorem flushLoop_turns {outs : List OutAnswer} (h : s.flushLoop outs = some (rc, s'))
    (trace : Trace) (put : Bool) : s.Leads returned trace (.flush put) fun trace' lib =>
      ∃ doing, lib = (Library.mk s'.handle doing returned).flushed trace' put rc := by
  induction outs generalizing s trace with
  | nil =>
    rw [flushLoop] at h
    split at h
    · cases h
    · rename_i hempty
      cases h
      have hturn : Turn ⟨s.handle, .runs trace (.flush put), returned⟩ _ :=
        .flush ⟨.written 0, none⟩ rfl
      rw [Library.flush, if_neg hempty] at hturn
      exact .single trace hturn rfl ⟨_, rfl⟩
  | cons answer outs ih =>
    let trace₁ :=
      { trace with wrote := trace.wrote ++ (protWrite s.handle.prot answer.write).2.2 }
    have hturn : Turn ⟨s.handle, .runs trace (.flush put), returned⟩ _ := .flush answer rfl
    rw [flushLoop] at h
    split at h
    · rename_i hwrite
      rw [Library.flush, if_pos hwrite] at hturn
      simp only at h hturn
      split at h
      · rename_i hneg
        cases h
        rw [polled] at hneg
        rw [if_pos hneg] at hturn
        exact .single trace₁ hturn rfl ⟨_, rfl⟩
      · rename_i hneg
        rw [polled] at hneg
        rw [if_neg hneg] at hturn
        exact .head trace₁ hturn rfl (ih h trace₁)
    · rename_i hempty
      cases h
      rw [Library.flush, if_neg hempty] at hturn
      exact .single trace hturn rfl ⟨_, rfl⟩

/-- The loop on `prot_read`, in one turn for each answer. -/
theorem readLoop_turns {ins : List InAnswer} (h : s.readLoop ins = some (rc, s'))
    (trace : Trace) : s.Leads returned trace .read fun trace' lib =>
      if rc > 0 then lib = ⟨s'.handle, .runs trace' .next, returned⟩
      else ∃ doing, lib = if rc = 0 then (Library.mk s'.handle doing returned).disconnect trace'
        else (Library.mk s'.handle doing returned).replied trace' rc := by
  induction ins generalizing s trace with
  | nil => cases h
  | cons answer ins ih =>
    have hturn : Turn ⟨s.handle, .runs trace .read, returned⟩ _ := .read answer rfl
    rw [readLoop] at h
    rw [Library.read] at hturn
    simp only at h hturn
    split at h
    · rename_i hpos
      cases h
      rw [if_pos hpos] at hturn
      exact .single _ hturn (by rfl) ((if_pos hpos).mpr rfl)
    · rename_i hpos
      rw [if_neg hpos] at hturn
      split at h
      · rename_i hzero
        cases h
        rw [if_pos hzero] at hturn
        exact .single _ hturn (by rfl)
          ((if_neg (Int.lt_irrefl 0)).mpr ⟨_, (if_pos rfl).symm⟩)
      · rename_i hzero
        rw [if_neg hzero] at hturn
        split at h
        · rename_i hneg
          cases h
          rw [polled] at hneg
          rw [if_pos hneg] at hturn
          rw [← polled] at hneg hturn
          exact .single _ hturn (by rfl) ((if_neg (Int.not_lt.2 (Int.le_of_lt hneg))).mpr
            ⟨_, (if_neg (Int.ne_of_lt hneg)).symm⟩)
        · rename_i hneg
          rw [polled] at hneg
          rw [if_neg hneg] at hturn
          exact .head _ hturn (by rfl) (ih h _)

/-- `wait_reply`: what follows gets its code. -/
theorem waitReply_turns {fuel : Nat} (h : waitReply fuel s = some (rc, s')) (trace : Trace) :
    s.Leads returned trace .next fun trace' lib =>
      ∃ doing, lib = (Library.mk s'.handle doing returned).replied trace' rc := by
  induction fuel generalizing s trace with
  | zero => cases h
  | succ fuel ih =>
    have hturn : Turn ⟨s.handle, .runs trace .next, returned⟩ _ := .next rfl
    rw [waitReply] at h
    rw [Library.next] at hturn
    simp only at h hturn
    split at h
    · rename_i hpos
      cases h
      rw [if_pos hpos] at hturn
      exact .single trace hturn rfl ⟨_, rfl⟩
    · rename_i hpos
      rw [if_neg hpos] at hturn
      split at h
      · rename_i hsize
        cases h
        rw [if_pos hsize] at hturn
        exact .single trace hturn rfl ⟨_, rfl⟩
      · rename_i hsize
        rw [if_neg hsize] at hturn
        split at h
        · rename_i hneg
          rw [if_pos hneg] at hturn
          obtain ⟨⟨rc₁, s₁⟩, hread, h⟩ := Option.bind_eq_some_iff.1 h
          obtain ⟨trace₁, lib, hcall, hafter, hturns⟩ := readLoop_turns hread trace
          simp only at h
          split at h
          · rename_i hdata
            rw [if_pos hdata] at hafter
            subst hafter
            obtain ⟨trace', lib, hcall', hafter, hrest⟩ := ih h trace₁
            exact ⟨trace', lib, hcall'.trans hcall, hafter, .head hturn (hturns.trans hrest)⟩
          · rename_i hdata
            rw [if_neg hdata] at hafter
            obtain ⟨doing, rfl⟩ := hafter
            split at h
            · rename_i hzero
              cases h
              rw [if_pos hzero] at hturns
              exact ⟨trace₁, _, hcall, ⟨_, rfl⟩, .head hturn hturns⟩
            · rename_i hzero
              cases h
              rw [if_neg hzero] at hturns
              exact ⟨trace₁, _, hcall, ⟨_, rfl⟩, .head hturn hturns⟩
        · rename_i hneg
          rw [if_neg hneg] at hturn
          exact .head trace hturn rfl (ih h trace)

/-- The function `aftersend` of a call: the call returns its code. -/
theorem aftersend_turns {call : ApiCall} {fuel turns : Nat}
    (h : aftersend call fuel turns s = some (rc, s')) {trace : Trace} (hcall : trace.call = call) :
    s.Leads returned trace .next fun trace' lib =>
      lib = (Library.mk s'.handle .idle returned).returns trace' rc := by
  induction turns generalizing s trace with
  | zero => cases h
  | succ turns ih =>
    rw [aftersend] at h
    obtain ⟨⟨rc₁, s₁⟩, hwait, h⟩ := Option.bind_eq_some_iff.1 h
    obtain ⟨trace₁, lib, hcall₁, ⟨doing, rfl⟩, hturns⟩ := waitReply_turns hwait trace
    subst hcall
    simp only at h
    split at h
    · rename_i hcode
      cases h
      rw [← hcall₁] at hcode
      rw [Library.replied, hcode] at hturns
      exact ⟨trace₁, _, hcall₁, rfl, hturns⟩
    · rename_i hcode
      rw [← hcall₁] at hcode
      rw [Library.replied, hcode] at hturns
      -- the fields go to the callback
      let trace₂ := { trace₁ with shown := trace₁.shown ++ [s₁.handle.reply.tail] }
      have hcall₂ : trace₂.call = trace.call := hcall₁
      obtain ⟨trace', lib, hcall', hafter, hrest⟩ := ih h hcall₂
      exact ⟨trace', lib, hcall'.trans hcall₁, hafter, hturns.trans hrest⟩

/-- No code of the output functions is positive: the loop on the fields. -/
theorem putFieldsLoop_code (p : Prot) (fields : List CStr) :
    (putFieldsLoop p fields).1 = 0 ∨ (putFieldsLoop p fields).1 < 0 := by
  induction fields generalizing p with
  | nil => exact .inl rfl
  | cons field fields ih =>
    rw [putFieldsLoop]
    simp only
    split
    · exact ih _
    · exact protPutField_code p field

/-- The end of a record. -/
theorem protPutEnd_code (p : Prot) : (protPutEnd p).1 = 0 ∨ (protPutEnd p).1 < 0 := by
  unfold protPutEnd
  split
  · obtain hroom | hfull := Nat.lt_or_ge p.outbuf.count PROT_MAX_BUFFER_LENGTH
    · rw [bufPutCar_room hroom]
      exact .inl rfl
    · have hneg : -ECANCELED < 0 := by decide
      rw [bufPutCar_full hfull]
      exact .inr hneg
  · exact .inl rfl

/-- A trial to send. -/
theorem sendTrial_code (p : Prot) (fields : List CStr) :
    (sendTrial p fields).1 = 0 ∨ (sendTrial p fields).1 < 0 := by
  have hput := putFieldsLoop_code p fields
  rw [sendTrial]
  generalize putFieldsLoop p fields = r at hput
  have hend : ∀ r' : Int × Prot,
      (if r'.1 = 0 then (r'.1, r'.2) else (r'.1, protPutCancel r'.2)).1 = r'.1 := by
    intro r'
    split <;> rfl
  simp only [hend]
  split
  · exact protPutEnd_code _
  · exact hput

/-- And a flush. -/
theorem flushLoop_code {outs : List OutAnswer} (h : s.flushLoop outs = some (rc, s')) :
    rc = 0 ∨ rc < 0 := by
  induction outs generalizing s with
  | nil =>
    rw [flushLoop] at h
    split at h
    · cases h
    · cases h
      exact .inl rfl
  | cons answer outs ih =>
    rw [flushLoop] at h
    split at h
    · simp only at h
      split at h
      · rename_i hneg
        cases h
        exact .inr hneg
      · exact ih h
    · cases h
      exact .inl rfl

/-- What the code `rc` of `send_fields` leads to in `sync_process`. -/
def Sent (s : Sockets) (returned : List (Trace × Int)) (rc : Int) (trace : Trace) (lib : Library) :
    Prop :=
  lib = if rc ≥ 0 then ⟨s.handle, .runs trace .next, returned⟩
    else (Library.mk s.handle .idle returned).returns trace rc

/-- What a trial leads to that fails. -/
theorem sent_of_neg (h : rc < 0) (doing : Doing) (trace : Trace) :
    s.Sent returned rc trace ((Library.mk s.handle doing returned).returns trace rc) :=
  (if_neg (Int.not_le.2 h)).symm

/-- What the flush behind a trial leads to. -/
theorem sent_of_flushed (doing : Doing) (trace : Trace) :
    s.Sent returned rc trace ((Library.mk s.handle doing returned).flushed trace true rc) := rfl

/-- `send_fields`, with its second trial. -/
theorem sendFields_turns {trace : Trace} (h : s.sendFields trace.call.fields = some (rc, s'))
    (doing : Doing) : ∃ trace' lib, trace'.call = trace.call ∧ s'.Sent returned rc trace' lib ∧
      Turns ((Library.mk s.handle doing returned).send trace false) lib := by
  rw [sendFields] at h
  simp only at h
  rw [Library.send]
  simp only
  split at h
  · rename_i hput
    obtain ⟨trace', lib, hcall, ⟨doing', rfl⟩, hturns⟩ := flushLoop_turns h trace true
    rw [if_pos (show (sendTrial s.handle.prot trace.call.fields).1 = 0 from hput)]
    exact ⟨trace', _, hcall, sent_of_flushed doing' trace', hturns⟩
  · rename_i hput
    rw [if_neg (show ¬ (sendTrial s.handle.prot trace.call.fields).1 = 0 from hput),
      if_neg Bool.false_ne_true]
    obtain ⟨⟨rc₁, s₁⟩, hflush, h⟩ := Option.bind_eq_some_iff.1 h
    obtain ⟨trace₁, lib, hcall, ⟨doing', rfl⟩, hturns⟩ := flushLoop_turns hflush trace false
    rw [Library.flushed, if_neg Bool.false_ne_true] at hturns
    simp only at h
    split at h
    · rename_i hrc
      cases h
      rw [if_neg hrc] at hturns
      have hneg := (flushLoop_code hflush).resolve_left hrc
      exact ⟨trace₁, _, hcall, sent_of_neg hneg doing' trace₁, hturns⟩
    · rename_i hrc
      rw [if_pos (not_not.1 hrc), Library.send] at hturns
      rw [← hcall] at h
      simp only at hturns
      split at h
      · rename_i hput
        obtain ⟨trace', lib, hcall', ⟨doing', rfl⟩, hrest⟩ := flushLoop_turns h trace₁ true
        rw [if_pos (show (sendTrial s₁.handle.prot trace₁.call.fields).1 = 0 from hput)] at hturns
        exact ⟨trace', _, hcall'.trans hcall, sent_of_flushed doing' trace', hturns.trans hrest⟩
      · rename_i hput
        have hneg := (sendTrial_code s₁.handle.prot trace₁.call.fields).resolve_left hput
        rw [if_neg (show ¬ (sendTrial s₁.handle.prot trace₁.call.fields).1 = 0 from hput),
          if_pos trivial] at hturns
        cases h
        exact ⟨trace₁, _, hcall, sent_of_neg hneg doing' trace₁, hturns⟩

/-- What `ensure_opened` of the library gets for `connection`. -/
def Opening (s : Sockets) (script : Script) (opening : Int × Handle) : Prop :=
  s.handle.synclock = false → s.handle.state = .disconnected →
    ∃ s₁, (s.lock script).connection script = some (opening.1, s₁) ∧ s₁.handle = opening.2

theorem ensureOpened_opening {script : Script}
    (h : (s.lock script).ensureOpened script = some (rc, s')) :
    ∃ opening, s.Opening script opening ∧
      SecLsmManager.ensureOpened opening script.alive (s.lock script).handle = (rc, s'.handle) := by
  rw [ensureOpened] at h
  cases hstate : (s.lock script).handle.state with
  | disconnected =>
    rw [hstate] at h
    exact ⟨(rc, s'.handle), fun _ _ => ⟨s', h, rfl⟩, by rw [SecLsmManager.ensureOpened, hstate]⟩
  | connected =>
    have hne : s.handle.state ≠ .disconnected := by
      intro hd
      cases hd.symm.trans hstate
    rw [hstate] at h
    refine ⟨(0, s.handle), fun _ hd => absurd hd hne, ?_⟩
    rw [SecLsmManager.ensureOpened, hstate]
    cases halive : script.alive with
    | true =>
      rw [halive] at h
      cases h
      rfl
    | false =>
      rw [halive] at h
      cases h
      rfl
  | broken =>
    have hne : s.handle.state ≠ .disconnected := by
      intro hd
      cases hd.symm.trans hstate
    rw [hstate] at h
    refine ⟨(0, s.handle), fun _ hd => absurd hd hne, ?_⟩
    rw [SecLsmManager.ensureOpened, hstate]
    cases h
    rfl

/-- What follows the opening of the connection. -/
theorem process_turns {trace : Trace} {script : Script} {rc₁ : Int}
    (h : s.process trace.call script rc₁ = some (rc, s')) (doing : Doing) :
    ∃ trace', trace'.call = trace.call ∧
      Turns (if rc₁ ≥ 0 then (Library.mk s.handle doing returned).send trace false
          else (Library.mk s.handle doing returned).returns trace rc₁)
        ((Library.mk s'.handle .idle returned).returns trace' rc) := by
  rw [process] at h
  split at h
  · rename_i hrc₁
    rw [if_pos hrc₁]
    obtain ⟨⟨rc₂, s₂⟩, hsend, h⟩ := Option.bind_eq_some_iff.1 h
    obtain ⟨trace₂, lib, hcall₂, hsent, hturns⟩ := sendFields_turns hsend doing
    rw [Sent] at hsent
    simp only at h
    split at h
    · rename_i hrc₂
      rw [if_pos hrc₂] at hsent
      subst hsent
      obtain ⟨trace', lib, hcall', rfl, hrest⟩ := aftersend_turns h hcall₂
      exact ⟨trace', hcall'.trans hcall₂, hturns.trans hrest⟩
    · rename_i hrc₂
      rw [if_neg hrc₂] at hsent
      subst hsent
      cases h
      exact ⟨trace₂, hcall₂, hturns⟩
  · rename_i hrc₁
    rw [if_neg hrc₁]
    cases h
    exact ⟨trace, rfl, .refl⟩

/-- **A call is a run of turns.** A call that returns leads the library, turn by turn, to the same
handle, and the library returns the same code. -/
theorem syncProcess_turns {call : ApiCall} {script : Script}
    (h : s.syncProcess call script = some (rc, s')) (returned : List (Trace × Int)) :
    ∃ trace opening, trace.call = call ∧ s.Opening script opening ∧
      Turns ((Library.mk s.handle .idle returned).start call opening script.alive)
        ⟨s'.handle, .idle, returned ++ [(trace, rc)]⟩ := by
  rw [syncProcess] at h
  split at h
  · rename_i hlock
    cases h
    refine ⟨⟨call, [], [], []⟩, (0, s.handle), rfl, fun hunlocked => ?_, ?_⟩
    · exact absurd hlock (hunlocked ▸ Bool.false_ne_true)
    · rw [Library.start, if_pos hlock]
  · rename_i hlock
    obtain ⟨⟨rc₁, s₁⟩, hopened, h⟩ := Option.bind_eq_some_iff.1 h
    obtain ⟨opening, hopening, hensured⟩ := ensureOpened_opening hopened
    obtain ⟨⟨rc₂, s₂⟩, hprocess, h⟩ := Option.bind_eq_some_iff.1 h
    cases h
    obtain ⟨trace', hcall, hturns⟩ :=
      @process_turns _ _ _ returned ⟨call, [], [], []⟩ _ _ hprocess .idle
    refine ⟨trace', opening, hcall, hopening, ?_⟩
    rw [Library.start, if_neg hlock]
    rw [lock] at hensured
    simp only [hensured]
    exact hturns

end Sockets

end SecLsmManager
