import SecLsmManager.Client.Requests

/-!
# Processing does not disconnect

No request, read or write changes whether a client is connected: only the server disconnects.
-/

namespace SecLsmManager

variable {σ : Type*}

/-- Writing to the peer, failing writes included, never closes the session. -/
theorem flushLoop_connected (writes : List OutAnswer) (c : Client σ) :
    (flushLoop writes c).2.connected = c.connected := by
  induction writes generalizing c with
  | nil =>
    rw [flushLoop]
    split <;> rfl
  | cons answer writes ih =>
    rw [flushLoop]
    split
    · dsimp only
      split
      · exact ih _
      · split
        · rfl
        · split
          · rfl
          · split
            · exact ih _
            · rfl
    · rfl

/-- Nor does putting a record, whether it fits, fits after a flush or is too long. -/
theorem putx_connected (c : Client σ) (fields : List CStr) :
    (putx c fields).2.connected = c.connected := by
  rw [putx]
  split
  · rfl
  · dsimp only
    split
    · split
      · exact flushLoop_connected _ _
      · exact flushLoop_connected _ _
    · rfl

/-- The acknowledgement of a query is one record and its flush. -/
theorem sendDone_connected (c : Client σ) (arg : Option CStr) :
    (sendDone c arg).connected = c.connected :=
  (flushLoop_connected _ _).trans (putx_connected c _)

/-- So is the error reply, whose text is a C string of the manager. -/
theorem sendError_connected (c : Client σ) (errorstr : CStr) :
    (sendError c errorstr).connected = c.connected :=
  (flushLoop_connected _ _).trans (putx_connected _ _)

/-- The reply to a status is one of the two. -/
theorem sendStatus_connected (c : Client σ) (rc : Int) (texts : ErrorTexts) :
    (sendStatus c rc texts).connected = c.connected := by
  rw [sendStatus]
  split
  · exact sendDone_connected c none
  · exact sendError_connected c _

/-- The records of a display are put one by one; a record that does not fit ends the loop only. -/
theorem visitLoop_connected (records : List (List CStr)) (c : Client σ) :
    (visitLoop records c).2.connected = c.connected := by
  induction records generalizing c with
  | nil => rfl
  | cons fields records ih =>
    rw [visitLoop]
    dsimp only
    split
    · exact (ih _).trans (putx_connected c fields)
    · exact putx_connected c fields

/-- A display that is cut leaves its client connected. -/
theorem sendDisplay_connected (c : Client σ) : (sendDisplay c).2.connected = c.connected := by
  cases herror : contextHasError c.context with
  | true =>
    have hput := putx_connected c [wordString, wordError, wordOn]
    rw [sendDisplay, herror, if_pos rfl]
    dsimp only
    split
    · exact (visitLoop_connected _ _).trans hput
    · exact hput
  | false =>
    rw [sendDisplay, herror, if_neg Bool.false_ne_true]
    exact visitLoop_connected _ c

/-- The handler of `display` replies with the display or with an error. -/
theorem onDisplay_connected (c : Client σ) : (onDisplay c).connected = c.connected := by
  rw [onDisplay]
  dsimp only
  split
  · exact (sendDone_connected _ _).trans (sendDisplay_connected c)
  · exact (sendError_connected _ _).trans (sendDisplay_connected c)

/-- No query of an accepted session closes it, whatever the manager answers. -/
theorem serve_connected (permgr : PermMgr σ) (mac : Mac σ) (c : Client σ) (query : Query) :
    (c.serve permgr mac query).connected = c.connected := by
  cases query with
  | hello versions _ => exact sendDone_connected c _
  | clear => exact sendDone_connected _ _
  | display => exact onDisplay_connected c
  | install => exact sendStatus_connected _ _ _
  | uninstall => exact sendStatus_connected _ _ _
  | log setlog => exact sendDone_connected c _
  | id appid => exact sendStatus_connected _ _ _
  | path p type => exact sendStatus_connected _ _ _
  | permission perm => exact sendStatus_connected _ _ _
  | plug expdir impid impdir => exact sendStatus_connected _ _ _

/-- The version check closes no session either: a greeting that is refused is only reported. -/
theorem onrequest_connected (permgr : PermMgr σ) (mac : Mac σ) (c : Client σ) (args : List CStr) :
    (onrequest permgr mac c args).connected = c.connected := by
  cases args with
  | nil => rfl
  | cons key args =>
    obtain ⟨query, -, hserve⟩ | ⟨-, version, hinvalid⟩ :=
      onrequest_cases permgr mac c (List.cons_ne_nil key args)
    · rw [hserve]
      exact serve_connected permgr mac _ query
    · rw [hinvalid]
      exact sendError_connected _ _

/-- The records already buffered are served without closing the session. -/
theorem processPending_connected (permgr : PermMgr σ) (mac : Mac σ) (k : Nat) (c : Client σ) :
    (processPending permgr mac k c).2.connected = c.connected := by
  induction k generalizing c with
  | zero => rfl
  | succ k ih =>
    rw [processPending]
    split
    · rfl
    · dsimp only
      split
      · rfl
      · refine (ih _).trans ?_
        dsimp only
        split
        · exact onrequest_connected permgr mac _ _
        · rfl

/-- **`client_process_input` leaves the client connected.** -/
theorem clientProcessInput_connected (permgr : PermMgr σ) (mac : Mac σ) (cuts : List Nat)
    (c : Client σ) : (clientProcessInput permgr mac cuts c).2.connected = c.connected := by
  induction cuts generalizing c with
  | nil =>
    rw [clientProcessInput]
    have hpending := processPending_connected permgr mac (c.prot.inbuf.count + 1) c
    dsimp only
    split
    · exact hpending
    · split
      · exact hpending
      · split
        · exact hpending
        · exact hpending
  | cons count cuts ih =>
    rw [clientProcessInput]
    have hpending := processPending_connected permgr mac (c.prot.inbuf.count + 1) c
    dsimp only
    split
    · exact hpending
    · split
      · exact hpending
      · split
        · exact hpending
        · split
          · exact hpending
          · exact (ih _).trans hpending

end SecLsmManager
