import Muduo.Http.HttpClosing

/-! # Runs of a closing connection

The invariant of `Closing` is a `Stage`: the connection is not to be closed, or it is to be closed
after the last response, which is being written, or it is closed. `follows_of_faithful` follows from
what the actions and the callbacks make of the stages. -/

namespace Muduo

namespace Http

open Net

/-! ## The invariant -/

namespace Answer

/-- The connection is not to be closed after the response, and it has not been. -/
def Quiet (a : Answer) : Prop := a.state = .kConnected → a.wanted = false ∧ a.shutdowns = []

/-- The connection is to be closed after the response, which says so. -/
structure Wanted (a : Answer) : Prop where
  wanted : a.wanted = true
  carries : a.CarriesClose

/-- What is stored for a response is what is left of it after the bytes that are buffered. -/
def FollowedBy (a : Answer) (state : State) : WriteComplete → Prop
  | .closeConnection => a.fileSent = a.fileSize
  | .sendFile closeConn file => closeConn = true ∧ state = .kConnected ∧ 0 ≤ file.fd ∧
      a.fileSize = file.fileSize.toNat ∧ a.fileSize < 2 ^ 63 ∧ a.fileSent = 0

end Answer

namespace Closing

variable {c d : Closing}

/-- The response is being written: some of its bytes are buffered, or its file is left to the write
events. -/
structure Pending (c : Closing) (a : Answer) (w : WriteComplete) : Prop where
  writing : c.sender.conn.writing = true
  rest : (c.sender.conn.outputBuffer.bytes ≠ [] ∧ a.stop = c.sender.stream.length ∧
      a.FollowedBy c.sender.conn.state w) ∨
    c.sender.conn.file ≠ none ∧ w = .closeConnection ∧ a.fileSent ≠ a.fileSize

/-- The connection is not to be closed. -/
structure Quiet (c : Closing) : Prop where
  answers : ∀ a ∈ c.answers, a.Quiet
  /-- A callback that closes it is stored only for a request that came too late. -/
  stored : ∀ i w, c.writeCompleteCallback = some (i, w) → w.closes = true →
    c.sender.conn.state ≠ .kConnected ∧ ∃ a, c.answers[i]? = some a ∧ a.state ≠ .kConnected

/-- The connection is to be closed after the last response, for which `w` is stored. -/
structure Owes (c : Closing) (as : List Answer) (a : Answer) (w : WriteComplete) : Prop where
  answers : c.answers = as ++ [a]
  quiet : ∀ b ∈ as, b.Quiet
  wanted : a.Wanted
  shutdowns : a.shutdowns = []
  stored : c.writeCompleteCallback = some (as.length, w)

/-- **How far the connection is.** -/
inductive Stage (c : Closing) : Prop
  /-- It is not to be closed. -/
  | quiet : c.Quiet → Stage c
  /-- It is to be closed after the last response, which is being written. -/
  | owed (as : List Answer) (a : Answer) (w : WriteComplete) : c.Owes as a w → c.Pending a w →
      Stage c
  /-- It is closed, and no callback is called any more. -/
  | closed (as : List Answer) (a : Answer) (bs : List Answer) : c.answers = as ++ a :: bs →
      (∀ b ∈ as, b.Quiet) → a.Wanted → a.shutdowns = [true] →
      a.Complete c.sender.accepted.length → (∀ b ∈ bs, b.state ≠ .kConnected) →
      c.sender.conn.state ≠ .kConnected → c.sender.conn.writing = false → Stage c

/-- What holds of the connection after every action. -/
structure Sound (c : Closing) : Prop where
  callback : c.sender.conn.writeCompleteCallback = c.writeCompleteCallback.isSome
  stage : c.Stage

/-- Where the connection is with its output does not matter. -/
theorem Owes.of_sender {as : List Answer} {a : Answer} {w : WriteComplete} (h : c.Owes as a w)
    (u : Sender) : Owes { c with sender := u } as a w :=
  ⟨h.answers, h.quiet, h.wanted, h.shutdowns, h.stored⟩

theorem sound_established : Sound established :=
  ⟨rfl, .quiet ⟨nofun, nofun⟩⟩

/-- The response that is being written is not complete. -/
theorem Pending.not_complete {a : Answer} {w : WriteComplete} (h : c.Pending a w) :
    ¬a.Complete c.sender.accepted.length := by
  rintro ⟨hle, hsent⟩
  rcases h.rest with ⟨hbytes, hstop, -⟩ | ⟨-, -, hne⟩
  · have hpos := List.length_pos_iff.mpr hbytes
    rw [hstop, Sender.stream, List.length_append] at hle
    omega
  · exact hne hsent

theorem Sound.follows (h : c.Sound) : c.Follows := by
  have hquiet {a : Answer} (ha : a.Quiet) (hstate : a.state = .kConnected) (n : ℕ) :
      a.Follows n := by
    obtain ⟨hwanted, hnone⟩ := ha hstate
    rw [Answer.Follows, if_neg (by rw [hwanted]; exact Bool.false_ne_true)]
    exact hnone
  have hwanted {a : Answer} (ha : a.Wanted) {n : ℕ}
      (hshut : a.shutdowns = if a.Complete n then [true] else []) : a.Follows n := by
    rw [Answer.Follows, if_pos ha.wanted]
    exact ⟨ha.carries, hshut⟩
  intro b hb hstate
  cases h.stage with
  | quiet hq => exact hquiet (hq.answers b hb) hstate _
  | owed as a w howes hpending =>
    rw [howes.answers, List.mem_append, List.mem_singleton] at hb
    rcases hb with hb | rfl
    · exact hquiet (howes.quiet b hb) hstate _
    · refine hwanted howes.wanted ?_
      rw [if_neg hpending.not_complete, howes.shutdowns]
  | closed as a bs heq hall ha hone hcomplete hlate =>
    rw [heq, List.mem_append, List.mem_cons] at hb
    rcases hb with hb | rfl | hb
    · exact hquiet (hall b hb) hstate _
    · refine hwanted ha ?_
      rw [if_pos hcomplete, hone]
    · exact absurd hstate (hlate b hb)

/-- The calls that are waiting do not matter. -/
theorem Sound.of_frames {frames : List Frame} (h : c.Sound) :
    ({ c with sender := { c.sender with frames := frames } } : Closing).Sound := by
  refine ⟨h.callback, ?_⟩
  cases h.stage with
  | quiet hq => exact .quiet ⟨hq.answers, hq.stored⟩
  | owed as a w howes hpending =>
    exact .owed as a w (howes.of_sender _) ⟨hpending.writing, hpending.rest⟩
  | closed as a bs heq hall ha hone hcomplete hlate hstate hwriting =>
    exact .closed as a bs heq hall ha hone hcomplete hlate hstate hwriting

/-! ## The callbacks -/

/-- The call has not called `writeCompleteCallback_`. -/
theorem complete_of_frames {t : Sender} {callback : Closing → Option Closing}
    (hd : c.complete t callback = some d) (ht : t.frames = c.sender.frames) :
    d = { c with sender := t } := by
  rw [complete, if_neg (by rw [ht]; exact lt_irrefl _), Option.some_inj] at hd
  exact hd.symm

/-- The call ends with a call of `writeCompleteCallback_`, if it is set. -/
theorem sound_complete {u : Sender} {f : Frame} {callback : Closing → Option Closing}
    (hd : c.complete (u.complete f) callback = some d) (hu : u.frames = c.sender.frames)
    (hf : f.remain = 0)
    (hunset : u.conn.writeCompleteCallback = false → ({ c with sender := u } : Closing).Sound)
    (hset : u.conn.writeCompleteCallback = true → ∀ e,
      callback { c with sender := u.callback f } = some e →
        e.Sound ∧ e.sender.frames = (u.callback f).frames) :
    d.Sound ∧ d.sender.frames = c.sender.frames := by
  by_cases hcb : u.conn.writeCompleteCallback = true
  · have hlt : c.sender.frames.length < (u.callback f).frames.length := by
      rw [← hu]
      exact Nat.lt_succ_self _
    rw [Sender.complete, if_pos hcb, complete, if_pos hlt] at hd
    obtain ⟨e, he, hd⟩ := Option.bind_eq_some_iff.mp hd
    obtain ⟨v, hv, rfl⟩ := Option.map_eq_some_iff.mp hd
    obtain ⟨hsound, hframes⟩ := hset hcb e he
    -- the callback returns to a call that has nothing left to do
    rw [Sender.step_callbackReturns hframes hf, Option.some_inj] at hv
    subst hv
    exact ⟨hsound.of_frames, hu⟩
  · rw [Sender.complete, if_neg hcb] at hd
    cases complete_of_frames hd hu
    exact ⟨hunset (by simpa using hcb), hu⟩

/-- `shutdown` changes the state only. -/
theorem shutdown_eq (c : Closing) : c.shutdown = { c with sender := { c.sender with
    conn := { c.sender.conn with state := c.shutdown.sender.conn.state } } } := by
  rw [shutdown]
  split_ifs <;> rfl

theorem state_shutdown (c : Closing) : c.shutdown.sender.conn.state ≠ .kConnected := by
  rw [shutdown]
  split_ifs with h
  · exact nofun
  · exact h

@[simp] theorem frames_closeConnection (c : Closing) (i : ℕ) :
    (c.closeConnection i).sender.frames = c.sender.frames := by
  rw [closeConnection, shutdown_eq]

/-! ## A connection that is not to be closed -/

/-- An answer is brought up to date. -/
theorem quiet_modify {answers : List Answer} {i : ℕ} {g : Answer → Answer}
    (h : ∀ a ∈ answers, a.Quiet) (hg : ∀ a, answers[i]? = some a → (g a).Quiet) :
    ∀ a ∈ answers.modify i g, a.Quiet := by
  intro a ha
  obtain ⟨j, hj⟩ := List.mem_iff_getElem?.mp ha
  rw [List.getElem?_modify] at hj
  obtain ⟨b, hb, rfl⟩ := Option.map_eq_some_iff.mp hj
  by_cases hij : i = j
  · subst hij
    rw [if_pos rfl]
    exact hg b hb
  · rw [if_neg hij]
    exact h b (List.mem_of_getElem? hb)

theorem Quiet.of_state (h : c.Quiet) {u : Sender} (hu : u.conn.state = c.sender.conn.state) :
    ({ c with sender := u } : Closing).Quiet :=
  ⟨h.answers, fun i w hcb hw => hu ▸ h.stored i w hcb hw⟩

/-- What is known of the answer that a callback closes the connection for. -/
theorem getElem?_modify_state {answers : List Answer} {i : ℕ} {g : Answer → Answer}
    (hg : ∀ a, (g a).state = a.state)
    (h : ∃ a, answers[i]? = some a ∧ a.state ≠ .kConnected) :
    ∃ a, (answers.modify i g)[i]? = some a ∧ a.state ≠ .kConnected := by
  obtain ⟨a, ha, hstate⟩ := h
  refine ⟨g a, ?_, (hg a).symm ▸ hstate⟩
  rw [List.getElem?_modify_eq, ha]
  rfl

theorem Quiet.closeConnection (h : c.Quiet) {i : ℕ}
    (hcb : c.writeCompleteCallback = some (i, .closeConnection)) : (c.closeConnection i).Quiet := by
  obtain ⟨-, hlate⟩ := h.stored i _ hcb rfl
  rw [Closing.closeConnection, shutdown_eq]
  refine ⟨quiet_modify h.answers fun a ha hstate => ?_, fun j w hj _ => ?_⟩
  · obtain ⟨b, hb, hlate⟩ := hlate
    cases ha.symm.trans hb
    exact absurd hstate hlate
  · cases hcb.symm.trans hj
    exact ⟨state_shutdown c, getElem?_modify_state (fun _ => rfl) hlate⟩

/-- The file of a response that keeps the connection open, or of one that came too late. -/
theorem Quiet.sendFile (h : c.Quiet) {i : ℕ} {closeConn kept : Bool} {file : File}
    {σ : Written} (hcb : c.writeCompleteCallback = some (i, .sendFile closeConn file))
    (hd : c.sendFile i closeConn file σ kept = some d) :
    d.Sound ∧ d.sender.frames = c.sender.frames := by
  rw [Closing.sendFile] at hd
  obtain ⟨t, ht, hd⟩ := Option.bind_eq_some_iff.mp hd
  have hends := Sender.ends_sendFile ht
  -- what is stored now is quiet as well
  have hquiet : ∀ u : Sender, u.conn.state = c.sender.conn.state → Quiet
      { sender := u
        writeCompleteCallback := if closeConn then some (i, .closeConnection) else none
        answers := c.answers.modify i fun a =>
          { a with fileSent := a.fileSent + (t.accepted.length - c.sender.accepted.length) } } := by
    refine fun u hu => ⟨quiet_modify h.answers fun a ha => ?_, fun j w hj hw => ?_⟩
    · exact h.answers a (List.mem_of_getElem? ha)
    · cases closeConn with
      | false => cases hj
      | true =>
        cases hj
        obtain ⟨hstate, hlate⟩ := h.stored i _ hcb rfl
        exact ⟨hu ▸ hstate, getElem?_modify_state (fun _ => rfl) hlate⟩
  rcases hends.frames with hframes | ⟨u, f, rfl, hu, hf⟩
  · cases complete_of_frames hd hframes
    exact ⟨⟨hends.callback, .quiet (hquiet t hends.state)⟩, hframes⟩
  · have hstate := hends.state
    have hcallback := hends.callback
    rw [Sender.complete_conn] at hstate hcallback
    have hsound := sound_complete hd hu hf (fun _ => ⟨hcallback, .quiet (hquiet u hstate)⟩) ?_
    · exact hsound
    rintro hset e ⟨⟩
    -- the callback is called: it closes the connection
    have hclose : closeConn = true := by
      cases closeConn with
      | true => rfl
      | false => exact absurd (hcallback.symm.trans hset) Bool.false_ne_true
    have hq := (hquiet (u.callback f) hstate).closeConnection (i := i) (by rw [hclose]; rfl)
    refine ⟨⟨?_, .quiet hq⟩, frames_closeConnection _ _⟩
    rw [Closing.closeConnection, shutdown_eq]
    exact hcallback

theorem Quiet.writeComplete (h : c.Quiet) {σ : Written} {kept : Bool}
    (hcallback : c.sender.conn.writeCompleteCallback = c.writeCompleteCallback.isSome)
    (hd : c.writeComplete σ kept = some d) : d.Sound ∧ d.sender.frames = c.sender.frames := by
  rw [Closing.writeComplete] at hd
  cases hcb : c.writeCompleteCallback with
  | none =>
    rw [hcb] at hd
    cases hd
    exact ⟨⟨hcallback, .quiet h⟩, rfl⟩
  | some cb =>
    rw [hcb] at hd
    obtain ⟨i, w⟩ := cb
    cases w with
    | closeConnection =>
      cases hd
      refine ⟨⟨?_, .quiet (h.closeConnection hcb)⟩, frames_closeConnection _ _⟩
      rw [Closing.closeConnection, shutdown_eq]
      exact hcallback
    | sendFile closeConn file => exact h.sendFile hcb hd

/-- A call ends, with the callback or without it. -/
theorem Quiet.complete {t : Sender} {σ : Written} {kept : Bool} (h : c.Quiet)
    (hends : c.sender.Ends t)
    (hcallback : c.sender.conn.writeCompleteCallback = c.writeCompleteCallback.isSome)
    (hd : c.complete t (Closing.writeComplete σ kept) = some d) : d.Sound := by
  rcases hends.frames with hframes | ⟨u, f, rfl, hu, hf⟩
  · cases complete_of_frames hd hframes
    exact ⟨hends.callback.trans hcallback, .quiet (h.of_state hends.state)⟩
  · have hstate := hends.state
    have hset := hends.callback.trans hcallback
    rw [Sender.complete_conn] at hstate hset
    refine (sound_complete hd hu hf (fun _ => ⟨hset, .quiet (h.of_state hstate)⟩) ?_).1
    intro _ e he
    exact (h.of_state (u := u.callback f) hstate).writeComplete hset he

/-! ## A connection that is to be closed -/

/-- What is stored for a pending response closes the connection. -/
theorem Pending.closes {a : Answer} {w : WriteComplete} (h : c.Pending a w) : w.closes = true := by
  rcases h.rest with ⟨-, -, hfollow⟩ | ⟨-, rfl, -⟩
  · cases w with
    | closeConnection => rfl
    | sendFile closeConn file => exact hfollow.1
  · rfl

theorem Owes.closing {as : List Answer} {a : Answer} {w : WriteComplete} (h : c.Owes as a w)
    (hw : w.closes = true) : c.closing = true := by
  rw [Closing.closing, h.stored]
  exact hw

theorem modify_last (as : List Answer) (a : Answer) (g : Answer → Answer) :
    (as ++ [a]).modify as.length g = as ++ [g a] := by
  induction as with
  | nil => rfl
  | cons b as ih => exact congrArg (b :: ·) ih

/-- **The connection is closed when the response is complete.** -/
theorem Owes.closeConnection {as : List Answer} {a : Answer} {w : WriteComplete}
    (h : c.Owes as a w)
    (hcallback : c.sender.conn.writeCompleteCallback = c.writeCompleteCallback.isSome)
    (hwriting : c.sender.conn.writing = false) (hcomplete : a.Complete c.sender.accepted.length) :
    (c.closeConnection as.length).Sound := by
  rw [Closing.closeConnection, shutdown_eq]
  refine ⟨hcallback, .closed as { a with shutdowns := [true] } [] ?_ h.quiet
    ⟨h.wanted.wanted, h.wanted.carries⟩ rfl hcomplete nofun (state_shutdown c) hwriting⟩
  simp only [h.answers, modify_last, h.shutdowns, decide_eq_true hcomplete, List.nil_append]

/-- The socket takes all of the file if and only if `sendFileInLoop` sees nothing left. -/
theorem taken_eq_iff {file : File} {σ : Written} (hsize : file.fileSize.toNat < 2 ^ 63)
    (hpass : Passes file σ) (hle : σ.taken ≤ file.content.length) :
    σ.taken = file.fileSize.toNat ↔ file.fileSize = σ.toSize := by
  cases σ with
  | count n =>
    have hn : (Written.count n).toSize.toNat = n := FileTransfer.toNat_count hle
    rw [← BitVec.toNat_inj, hn]
    exact eq_comm
  | failed e =>
    refine iff_of_false (fun hzero => ?_) fun hmax => ?_
    · -- the file is empty, and nothing fails on it
      obtain ⟨n, hn⟩ := hpass (BitVec.eq_of_toNat_eq hzero.symm)
      cases hn
    · rw [hmax, Written.toSize] at hsize
      exact absurd hsize (by decide)

/-- `sendFile` for the last response. -/
theorem Owes.sendFile_eq_some {as : List Answer} {a : Answer} {w : WriteComplete} {file : File}
    {σ : Written} {kept : Bool} (h : c.Owes as a w) (hsent : a.fileSent = 0)
    (hd : c.sendFile as.length true file σ kept = some d) :
    ∃ e n t, Owes e as { a with fileSent := n } .closeConnection ∧
      e.sender = { c.sender with conn := { c.sender.conn with writeCompleteCallback := true } } ∧
      e.sender.sendFile file (whileKept kept σ) = some t ∧
      n = t.accepted.length - c.sender.accepted.length ∧
      e.complete t (fun d => some (d.closeConnection as.length)) = some d := by
  rw [Closing.sendFile] at hd
  obtain ⟨t, ht, hd⟩ := Option.bind_eq_some_iff.mp hd
  refine ⟨_, t.accepted.length - c.sender.accepted.length, t, ?_, ?_, ?_, rfl, hd⟩
  rotate_left
  · rfl
  · exact ht
  refine ⟨?_, h.quiet, ⟨h.wanted.wanted, h.wanted.carries⟩, h.shutdowns, rfl⟩
  have hlast := modify_last as a fun b =>
    { b with fileSent := b.fileSent + (t.accepted.length - c.sender.accepted.length) }
  rw [← h.answers, hsent, Nat.zero_add] at hlast
  exact hlast

/-- **The file is sent to an idle connection.** What is left of it stays with the write events. -/
theorem Owes.sendFile {as : List Answer} {a : Answer} {file : File} {σ : Written}
    (h : c.Owes as a (.sendFile true file)) (hidle : Exchange.Idle c.sender)
    (hstop : a.stop ≤ c.sender.accepted.length)
    (hfollow : a.FollowedBy c.sender.conn.state (.sendFile true file)) (hpass : Passes file σ)
    (hd : c.sendFile as.length true file σ true = some d) :
    d.Sound ∧ d.sender.frames = c.sender.frames := by
  obtain ⟨-, hstate, hopen, hlength, hsize, hsent⟩ := hfollow
  rw [hlength] at hsize
  obtain ⟨e, n, t, howes, he, ht, hn, hd⟩ := h.sendFile_eq_some hsent hd
  have hidle : Exchange.Idle e.sender := he ▸ ⟨hidle.writing, hidle.bytes⟩
  have hstate : e.sender.conn.state = .kConnected := he ▸ hstate
  have hframes : e.sender.frames = c.sender.frames := he ▸ rfl
  have haccepted : e.sender.accepted = c.sender.accepted := he ▸ rfl
  have hcallback : e.sender.conn.writeCompleteCallback = true := he ▸ rfl
  have hset : e.writeCompleteCallback.isSome = true := congrArg Option.isSome howes.stored
  rw [← haccepted] at hn hstop
  rw [← hframes]
  -- what the socket has taken of the file
  have htaken (hle : σ.taken ≤ file.content.length) :
      (e.sender.accepted ++ file.content.take σ.taken).length - e.sender.accepted.length =
        σ.taken := by
    rw [List.length_append, List.length_take, Nat.min_eq_left hle, Nat.add_sub_cancel_left]
  cases Sender.sendsFile ht with
  | dropped hne => exact absurd hstate hne
  | unopened _ hfd => exact absurd hopen (Int.not_le.mpr hfd)
  | whole f hfile _ _ hle heq hf =>
    rw [Sender.complete_accepted] at hn
    have hall := (hn.trans (htaken hle)).trans ((taken_eq_iff hsize hpass hle).mpr heq)
    refine sound_complete hd rfl hf (fun hunset => ?_) ?_
    · exact absurd (hunset.symm.trans hcallback) Bool.false_ne_true
    rintro - g ⟨⟩
    refine ⟨(howes.of_sender _).closeConnection (hcallback.trans hset.symm) hidle.writing
      ⟨?_, hall.trans hlength.symm⟩, frames_closeConnection _ _⟩
    exact hstop.trans (List.length_append ▸ Nat.le_add_right _ _)
  | part hfile _ _ hle hne =>
    have hrest := mt (taken_eq_iff hsize hpass hle).mp hne
    cases complete_of_frames hd rfl
    refine ⟨⟨hcallback.trans hset.symm, .owed as _ .closeConnection (howes.of_sender _)
      ⟨rfl, .inr ⟨Option.some_ne_none _, rfl, ?_⟩⟩⟩, rfl⟩
    intro hsame
    exact hrest ((htaken hle).symm.trans (hn.symm.trans (hsame.trans hlength)))
  | behind _ _ _ hdirect => exact absurd (hidle.directWrite hstate) hdirect
  | empty _ _ _ hdirect => exact absurd (hidle.directWrite hstate) hdirect

theorem Owes.writeComplete {as : List Answer} {a : Answer} {w : WriteComplete} {σ : Written}
    {kept : Bool} (h : c.Owes as a w)
    (hcallback : c.sender.conn.writeCompleteCallback = c.writeCompleteCallback.isSome)
    (hidle : Exchange.Idle c.sender) (hstop : a.stop ≤ c.sender.accepted.length)
    (hfollow : a.FollowedBy c.sender.conn.state w)
    (hpass : ∀ file, w = .sendFile true file → kept = true ∧ Passes file σ)
    (hd : c.writeComplete σ kept = some d) : d.Sound ∧ d.sender.frames = c.sender.frames := by
  rw [Closing.writeComplete, h.stored] at hd
  cases w with
  | closeConnection =>
    cases hd
    exact ⟨h.closeConnection hcallback hidle.writing ⟨hstop, hfollow⟩, frames_closeConnection _ _⟩
  | sendFile closeConn file =>
    obtain rfl : closeConn = true := hfollow.1
    obtain ⟨rfl, hpasses⟩ := hpass file rfl
    exact h.sendFile hidle hstop hfollow hpasses hd

/-- A call that leaves the connection idle ends with `writeCompleteCallback_`. -/
theorem Owes.idle {as : List Answer} {a : Answer} {w : WriteComplete} {σ : Written} {kept : Bool}
    {u : Sender} {f : Frame} (h : c.Owes as a w) (hidle : Exchange.Idle u)
    (hcallback : u.conn.writeCompleteCallback = c.writeCompleteCallback.isSome)
    (hstop : a.stop ≤ u.accepted.length) (hfollow : a.FollowedBy u.conn.state w)
    (hpass : ∀ file, w = .sendFile true file → kept = true ∧ Passes file σ)
    (hu : u.frames = c.sender.frames) (hf : f.remain = 0)
    (hd : c.complete (u.complete f) (Closing.writeComplete σ kept) = some d) : d.Sound := by
  refine (sound_complete hd hu hf (fun hunset => ?_) fun _ e he => ?_).1
  · -- the callback is set
    rw [hcallback, h.stored] at hunset
    cases hunset
  · exact (h.of_sender _).writeComplete hcallback ⟨hidle.writing, hidle.bytes⟩ hstop hfollow hpass
      he

/-! ## The actions -/

theorem Sound.shutdown (h : c.Sound) (hg : c.Faithful .shutdown) : c.shutdown.Sound := by
  have hstate := state_shutdown c
  rw [shutdown_eq] at hstate ⊢
  refine ⟨h.callback, ?_⟩
  cases h.stage with
  | quiet hq =>
    exact .quiet ⟨hq.answers, fun i w hcb hw => ⟨hstate, (hq.stored i w hcb hw).2⟩⟩
  | owed as a w howes hpending =>
    refine .owed as a w (howes.of_sender _)
      ⟨hpending.writing, hpending.rest.imp_left fun ⟨hbytes, hstop, hfollow⟩ =>
        ⟨hbytes, hstop, ?_⟩⟩
    cases w with
    | closeConnection => exact hfollow
    | sendFile closeConn file =>
      -- the file would be dropped
      obtain ⟨rfl, hconnected, -⟩ := hfollow
      have hnone := hg hconnected
      rw [closingFile, howes.stored] at hnone
      cases hnone
  | closed as a bs heq hall ha hone hcomplete hlate _ hwriting =>
    exact .closed as a bs heq hall ha hone hcomplete hlate hstate hwriting

/-- A write event for a response after which the connection is closed. -/
theorem Owes.handleWrite {as : List Answer} {a : Answer} {w : WriteComplete} {r σ : Written}
    {kept : Bool} {t : Sender} (h : c.Owes as a w)
    (hcallback : c.sender.conn.writeCompleteCallback = c.writeCompleteCallback.isSome)
    (hpending : c.Pending a w) (hfile : c.sender.conn.file = none)
    (hpass : Flushes c.sender r → ∀ file ∈ c.closingFile, kept = true ∧ Passes file σ)
    (ht : c.sender.handleWrite r = some t)
    (hd : c.complete t (Closing.writeComplete σ kept) = some d) : d.Sound := by
  obtain ⟨hbytes, hstop, hfollow⟩ := hpending.rest.resolve_right fun hkept => hkept.1 hfile
  cases Sender.writes ht with
  | finished file f _ hsome => exact absurd (hfile.symm.trans hsome) nofun
  | unfinished file _ hsome => exact absurd (hfile.symm.trans hsome) nofun
  | flushed b f _ _ _ hall hb hf =>
    -- the last byte before the file is written
    refine h.idle ?_ ?_ ?_ ?_ ?_ ?_ hf hd
    · exact ⟨rfl, hb⟩
    · exact hcallback
    · exact hstop.le
    · exact hfollow
    · rintro file rfl
      obtain ⟨-, hstate, -⟩ := hfollow
      refine hpass ⟨hstate, hall⟩ file ?_
      rw [closingFile, h.stored]
      rfl
    · rfl
  | part b _ _ _ hlt hb =>
    cases complete_of_frames hd rfl
    refine ⟨hcallback, .owed as a w (h.of_sender _) ⟨hpending.writing, .inl ⟨?_, ?_, hfollow⟩⟩⟩
    · exact hb ▸ Sender.drop_ne_nil hlt
    · simp only [hstop, Sender.stream, hb, List.append_assoc, List.take_append_drop]
  | stalled =>
    cases complete_of_frames hd rfl
    exact ⟨hcallback, .owed as a w h hpending⟩

theorem Sound.handleWrite (h : c.Sound) {r σ : Written} {kept : Bool}
    (hg : c.Faithful (.handleWrite r σ kept)) (hd : c.handleWrite r σ kept = some d) : d.Sound := by
  rw [Closing.handleWrite] at hd
  obtain ⟨t, ht, hd⟩ := Option.bind_eq_some_iff.mp hd
  rw [Sender.step] at ht
  split_ifs at ht
  cases h.stage with
  | quiet hq => exact hq.complete (Sender.ends_handleWrite ht) h.callback hd
  | owed as a w howes hpending =>
    exact howes.handleWrite h.callback hpending (hg.1 (howes.closing hpending.closes)) hg.2 ht hd
  | closed _ _ _ _ _ _ _ _ _ _ hwriting =>
    -- write interest is off
    rw [Sender.handleWrite, hwriting, if_neg Bool.false_ne_true] at ht
    cases ht

/-- What `onRequest` leaves in `writeCompleteCallback_`. -/
def stored (c : Closing) (i : ℕ) (response : HttpResponse) : Option (ℕ × WriteComplete) :=
  match response.file with
  | some file => some (i, .sendFile response.closeConnection file)
  | none => if response.closeConnection then some (i, .closeConnection) else c.writeCompleteCallback

theorem prepare_eq
    (hcallback : c.sender.conn.writeCompleteCallback = c.writeCompleteCallback.isSome) (i : ℕ)
    (response : HttpResponse) :
    c.prepare i response = c.setWriteCompleteCallback (c.stored i response) := by
  rw [prepare, stored]
  cases response.file with
  | some file => rfl
  | none =>
    simp only
    split_ifs with hclose
    · rfl
    · rw [setWriteCompleteCallback, ← hcallback]

/-- The connection when the response is sent. -/
def answering (c : Closing) (response : HttpResponse) (a : Answer) : Closing :=
  { c.setWriteCompleteCallback (c.stored c.answers.length response) with
    answers := c.answers ++ [a] }

@[simp] theorem answering_answers (c : Closing) (response : HttpResponse) (a : Answer) :
    (c.answering response a).answers = c.answers ++ [a] := rfl

@[simp] theorem answering_state (c : Closing) (response : HttpResponse) (a : Answer) :
    (c.answering response a).sender.conn.state = c.sender.conn.state := rfl

/-- A request is handled that does not ask for closing, or comes too late. -/
theorem Quiet.answered (h : c.Quiet) {a : Answer} {response : HttpResponse}
    (hstate : a.state = c.sender.conn.state) (ha : a.Quiet)
    (hflag : c.sender.conn.state = .kConnected → response.closeConnection = false) :
    (c.answering response a).Quiet := by
  refine ⟨fun b hb => ?_, fun j w hj hw => ?_⟩
  · rcases List.mem_append.mp hb with hb | hb
    · exact h.answers b hb
    · rw [List.mem_singleton.mp hb]
      exact ha
  have hlast : (c.answers ++ [a])[c.answers.length]? = some a := List.getElem?_concat_length
  -- what is stored for this request closes the connection only if it comes too late
  have hnew (hclose : response.closeConnection = true) : c.sender.conn.state ≠ .kConnected ∧
      ∃ b, (c.answers ++ [a])[c.answers.length]? = some b ∧ b.state ≠ .kConnected := by
    have hlate : c.sender.conn.state ≠ .kConnected := fun hc =>
      Bool.false_ne_true ((hflag hc).symm.trans hclose)
    exact ⟨hlate, a, hlast, hstate ▸ hlate⟩
  have hj' : c.stored c.answers.length response = some (j, w) := hj
  rw [Closing.stored] at hj'
  cases hfile : response.file with
  | some file =>
    rw [hfile] at hj'
    cases hj'
    exact hnew hw
  | none =>
    rw [hfile] at hj'
    simp only at hj'
    split_ifs at hj' with hclose
    · cases hj'
      exact hnew hclose
    · obtain ⟨hlate, b, hb, hbstate⟩ := h.stored j w hj' hw
      refine ⟨hlate, b, ?_, hbstate⟩
      rw [answering_answers, List.getElem?_append_left (List.getElem?_eq_some_iff.mp hb).1]
      exact hb

/-- What is stored for a response after which the connection is closed. -/
def after (response : HttpResponse) : WriteComplete :=
  response.file.elim .closeConnection (.sendFile true)

/-- **A response after which the connection is closed** is sent. -/
theorem Owes.send {as : List Answer} {a : Answer} {w : WriteComplete} {buf : Message}
    {r σ : Written} {kept : Bool} {t : Sender} (h : c.Owes as a w)
    (hcallback : c.sender.conn.writeCompleteCallback = c.writeCompleteCallback.isSome)
    (hstate : c.sender.conn.state = .kConnected) (hpos : 0 < buf.len)
    (hfollow : a.FollowedBy c.sender.conn.state w)
    (hpass : ∀ file, w = .sendFile true file → kept = true ∧ Passes file σ)
    (ht : c.sender.send buf r = some t)
    (hstop : a.stop = t.stream.length)
    (hd : c.complete t (Closing.writeComplete σ kept) = some d) : d.Sound := by
  -- what is not written at once is buffered
  have hbuffered (u : Sender) (data : Bytes) (hne : data ≠ [])
      (hu : u.conn.writeCompleteCallback = c.sender.conn.writeCompleteCallback)
      (hs : u.conn.state = c.sender.conn.state) (hstop : a.stop = (u.buffer data).stream.length) :
      Sound { c with sender := u.buffer data } := by
    refine ⟨hu.trans hcallback, .owed as a w (h.of_sender _)
      ⟨rfl, .inl ⟨?_, hstop, hs.symm ▸ hfollow⟩⟩⟩
    rw [Sender.buffer_bytes]
    exact List.append_ne_nil_of_right_ne_nil _ hne
  cases Sender.sends ht with
  | dropped _ hne => exact absurd hstate hne
  | whole f hw hf =>
    rw [Sender.complete_stream] at hstop
    refine h.idle ?_ ?_ ?_ ?_ hpass ?_ hf hd
    · exact ⟨hw.2.1, hw.bytes_eq⟩
    · exact hcallback
    · rw [hstop, Sender.stream, hw.bytes_eq, List.append_nil]
    · exact hfollow
    · rfl
  | part n hw hlt =>
    cases complete_of_frames hd rfl
    exact hbuffered _ _ (Sender.drop_ne_nil (by rw [Sender.length_bytes]; exact hlt)) rfl rfl hstop
  | failed e hw =>
    cases complete_of_frames hd rfl
    exact hbuffered _ _ (Sender.shifted_ne_nil buf) rfl rfl hstop
  | behind _ _ _ _ =>
    cases complete_of_frames hd rfl
    exact hbuffered _ _ (Sender.bytes_ne_nil hpos) rfl rfl hstop
  | empty _ _ _ hzero => exact absurd hzero (Nat.pos_iff_ne_zero.mp hpos)

/-- What is noted of a response that is sent now. -/
structure Fresh (c : Closing) (request : HttpRequest) (calls : List Setter) (t : Sender)
    (a : Answer) : Prop where
  state : a.state = c.sender.conn.state
  wanted : a.wanted = Http.wanted request calls
  head : a.head = ((respond request calls).appendToBuffer .new).bytes
  stop : a.stop = t.stream.length
  fileSize : a.fileSize = (respond request calls).fileLength
  fileSent : a.fileSent = 0
  shutdowns : a.shutdowns = []

/-- **What `onRequest` does.** -/
theorem onRequest_eq_some {request : HttpRequest}
    {httpCallback : HttpRequest → HttpResponse → List Setter} {buf : Message} {r σ : Written}
    (hcallback : c.sender.conn.writeCompleteCallback = c.writeCompleteCallback.isSome)
    (hd : c.onRequest request httpCallback buf r σ = some d) :
    ∃ calls t a, calls = httpCallback request (.new request.closes) ∧ 0 < buf.len ∧
      c.Fresh request calls t a ∧
      (c.answering (respond request calls) a).sender.send buf r = some t ∧
      (c.answering (respond request calls) a).complete t
        (Closing.writeComplete σ (respond request calls).file.isSome) = some d := by
  rw [Closing.onRequest] at hd
  simp only at hd
  split_ifs at hd with hbuf
  rw [prepare_eq hcallback] at hd
  obtain ⟨t, ht, hd⟩ := Option.bind_eq_some_iff.mp hd
  exact ⟨_, t, _, rfl, HttpResponse.length_pos hbuf, ⟨rfl, rfl, hbuf, rfl, rfl, rfl, rfl⟩, ht, hd⟩

theorem stored_of_closes {response : HttpResponse} (h : response.closeConnection = true) (i : ℕ) :
    c.stored i response = some (i, after response) := by
  rw [stored, after]
  cases response.file with
  | none => simp only [h, if_true, Option.elim_none]
  | some file => simp only [h, Option.elim_some]

/-- What is stored is what is left of a response after which the connection is closed. -/
theorem Fresh.followedBy {request : HttpRequest} {calls : List Setter} {t : Sender} {a : Answer}
    (h : c.Fresh request calls t a) (hopen : ∀ file ∈ given calls, 0 ≤ file.fd) :
    a.FollowedBy .kConnected (after (respond request calls)) := by
  have hlength := h.fileSize
  rw [after, file_respond]
  rw [HttpResponse.fileLength, file_respond] at hlength
  cases hfile : given calls with
  | none =>
    rw [hfile] at hlength
    exact h.fileSent.trans hlength.symm
  | some file =>
    have hfd := hopen file hfile
    rw [hfile, Option.elim_some, if_neg (Int.not_lt.mpr hfd)] at hlength
    exact ⟨rfl, rfl, hfd, hlength, hlength ▸ size_given hfile, h.fileSent⟩

/-- A request after which the connection is closed. -/
theorem Fresh.owes {request : HttpRequest} {calls : List Setter} {t : Sender} {a : Answer}
    (h : c.Fresh request calls t a) (hq : c.Quiet)
    (hflag : (respond request calls).closeConnection = true)
    (hwanted : Http.wanted request calls = true) :
    (c.answering (respond request calls) a).Owes c.answers a (after (respond request calls)) where
  answers := rfl
  quiet := hq.answers
  wanted := ⟨h.wanted.trans hwanted, by
    rw [Answer.CarriesClose, h.head]
    exact carriesClose_of_closes hflag⟩
  shutdowns := h.shutdowns
  stored := stored_of_closes hflag _

theorem Sound.onRequest (h : c.Sound) {request : HttpRequest}
    {httpCallback : HttpRequest → HttpResponse → List Setter} {buf : Message} {r σ : Written}
    (hg : c.Faithful (.onRequest request httpCallback buf r σ))
    (hd : c.onRequest request httpCallback buf r σ = some d) : d.Sound := by
  obtain ⟨hfree, hg⟩ := hg
  obtain ⟨calls, t, a, hcalls, hpos, hfresh, ht, hd⟩ := onRequest_eq_some h.callback hd
  rw [← hcalls] at hg
  cases h.stage with
  | owed as b w howes hpending =>
    -- no request is handled meanwhile
    have hclosing := howes.closing hpending.closes
    exact absurd ((hfree hpending.writing).symm.trans hclosing) Bool.false_ne_true
  | closed as b bs heq hall hb hone hcomplete hlate hstate hwriting =>
    -- the response is dropped
    have hdropped : (c.answering (respond request calls) a).sender = t := by
      rw [Sender.send, answering_state, if_neg hstate, Option.some_inj] at ht
      exact ht
    subst hdropped
    cases complete_of_frames hd rfl
    refine ⟨rfl, .closed as b (bs ++ [a]) ?_ hall hb hone hcomplete ?_ hstate hwriting⟩
    · exact (congrArg (· ++ [a]) heq).trans (List.append_assoc as (b :: bs) [a])
    · refine List.forall_mem_append.mpr ⟨hlate, ?_⟩
      rw [List.forall_mem_singleton, hfresh.state]
      exact hstate
  | quiet hq =>
    by_cases hstate : c.sender.conn.state = .kConnected
    · obtain ⟨hunderstood, hopen⟩ := hg hstate
      have hflag := (understood_iff request calls).mp hunderstood
      by_cases hwanted : wanted request calls = true
      · have hfile := hopen hwanted
        refine (hfresh.owes hq (hflag.trans hwanted) hwanted).send rfl hstate hpos
          (hstate ▸ hfresh.followedBy fun file hf => (hfile file hf).1) ?_ ht hfresh.stop hd
        intro file hafter
        rw [after, file_respond] at hafter
        cases hgiven : given calls with
        | none =>
          rw [hgiven] at hafter
          cases hafter
        | some file' =>
          rw [hgiven] at hafter
          cases hafter
          exact ⟨by rw [file_respond, hgiven]; rfl, (hfile file hgiven).2⟩
      · have hquiet : a.Quiet := fun _ => ⟨by rw [hfresh.wanted]; simpa using hwanted,
          hfresh.shutdowns⟩
        refine (hq.answered hfresh.state hquiet fun _ => ?_).complete (Sender.ends_send ht) rfl hd
        rw [hflag]
        simpa using hwanted
    · have hquiet : a.Quiet := fun ha => absurd (hfresh.state.symm.trans ha) hstate
      exact (hq.answered hfresh.state hquiet fun hc => absurd hc hstate).complete
        (Sender.ends_send ht) rfl hd

/-- **One action.** -/
theorem Sound.step (h : c.Sound) {a : Action} (hg : c.Faithful a) (hd : c.step a = some d) :
    d.Sound := by
  cases a with
  | onRequest request httpCallback buf r σ => exact h.onRequest hg hd
  | shutdown =>
    cases hd
    exact h.shutdown hg
  | handleWrite r σ kept => exact h.handleWrite hg hd

/-- **When closing follows the requests.** In every run of requests with any responses, parse errors
and write events, with any results of `write` and `sendfile`: if the actions meet the condition,
then after each of them every request that was handled in state `kConnected` has led to one call of
`shutdown` once its response is complete, if closing is asked for, and to none otherwise. -/
theorem follows_of_faithful {as : List Action} (hg : Runs.Guarded step Faithful established as) :
    Runs.Always step Follows established as :=
  fun _ hd _ ht => (Runs.exec_invariant sound_established (fun _ _ _ h ha hs => h.step ha hs)
    (hg.of_done hd) ht).follows

/-- A request with this version and this `Connection` header. -/
def asking (version : Version) (connection : String) : HttpRequest :=
  (HttpRequest.new.setVersion version).addHeader (ascii "Connection") (ascii connection)

/-- A callback that answers with an empty body. -/
def sayOk : HttpRequest → HttpResponse → List Setter :=
  fun _ _ => [.setHttpStatusCode .k200Ok, .setStatusString (ascii "OK")]

/-- A callback that answers with a file of three bytes and closes the connection. -/
def sayFile : HttpRequest → HttpResponse → List Setter :=
  fun _ _ => [.setHttpStatusCode .k200Ok, .setStatusString (ascii "OK"), .setCloseConnection true,
    .sendFile Sender.threeBytes (by decide)]

/-- What `appendToBuffer` writes of an answer that closes the connection. -/
def closeBytes : Bytes :=
  ascii "HTTP/1.1 200 OK" ++ [CR, LF] ++ ascii "Connection: close" ++ [CR, LF, CR, LF]

/-- A request that keeps the connection open, with partial writes, and one that is answered with a
file and closes it, whose header is written at once. -/
def openThenClose : List Action :=
  [.onRequest (asking .kHttp11 "Keep-Alive") sayOk
      (Exchange.held (Exchange.okBytes "0") Exchange.okBytes_zero_lt) (.count 20) (.count 0),
    .handleWrite (.count 30) (.count 0) false,
    .handleWrite (.count 12) (.count 0) false,
    .onRequest (asking .kHttp11 "Keep-Alive") sayFile (Exchange.held closeBytes (by decide +kernel))
      (.count 38) (.count 3)]

/-- The theorem at work: the second response is complete after its file. -/
theorem follows_of_faithful_openThenClose :
    (Runs.exec step established openThenClose).map (fun c => c.answers.map Answer.shutdowns) =
      some [[], [true]] ∧
    Runs.Always step Follows established openThenClose :=
  ⟨by decide +kernel, follows_of_faithful (by decide +kernel)⟩

/-- **`Connection: close` is not understood**: the response to an HTTP/1.1 request with this line
announces that the connection is kept, and it is. -/
theorem not_follows_close : ¬ ∀ as : List Action, Runs.Always step Follows established as := by
  intro hall
  have hrun : (Runs.exec step established
      [.onRequest (asking .kHttp11 "Close") sayOk
        (Exchange.held (Exchange.okBytes "0") Exchange.okBytes_zero_lt) (.count 62) (.count 0)]).map
      (fun c => decide c.Follows) = some false := by decide +kernel
  obtain ⟨c, hc, hobs⟩ := Option.map_eq_some_iff.mp hrun
  exact of_decide_eq_false hobs (hall _ _ List.prefix_rfl c hc)

end Closing

end Http

end Muduo
