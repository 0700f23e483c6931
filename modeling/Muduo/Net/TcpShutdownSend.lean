import Muduo.Net.TcpShutdown

/-! # Nothing that was sent before a shutdown is dropped

The output of a connection only grows at its end (`Sender.stream_of_step`), so a message that has
been given to `sendInLoop` stays where it is in the output, and it has been accepted when nothing is
pending.

A message may be lost before it comes there. `send` looks at `state_`, and when its functor runs
`sendInLoop` looks at `state_` again: a `shutdown` in between, also one by the thread that has sent
the message, makes it discard the message. The functor of `send(const void*, size_t)` reads the
memory of the caller, which may have changed, and `send(Buffer*)` by another thread does not wait for
the loop. `delivered_of_sendsDone` states that otherwise all messages are accepted before the write
side is shut down. -/

namespace Muduo

namespace Net

namespace Sender

variable {s t : Sender}

/-! ## The output grows at its end -/

/-- The message is at the end of the output after `send`, also if its first `write` fails. -/
theorem bytes_suffix_stream {m : Message} {r : Written} (hstate : s.conn.state = .kConnected)
    (h : s.send m r = some t) : m.bytes <:+ t.stream := by
  cases sends h with
  | dropped _ hnot => exact absurd hstate hnot
  -- a direct write finds nothing buffered
  | whole f hd =>
    refine ⟨s.accepted, ?_⟩
    simp [stream, hd.bytes_eq]
  | part n hd hlt =>
    refine ⟨s.accepted, ?_⟩
    simp [stream, hd.bytes_eq, buffer, enableWriting]
  | failed e hd =>
    -- the byte in front of the message is not part of it
    have hbuf : m.buf + -1 + BitVec.ofNat 64 1 = m.buf := by
      rw [BitVec.add_assoc]
      exact BitVec.add_zero _
    have hrest := m.mem.drop_read (m.buf + -1) (Nat.le_add_left 1 m.len)
    rw [hbuf, Nat.add_sub_cancel] at hrest
    rw [stream, buffer_bytes, Message.bytes, ← hrest]
    exact (List.drop_suffix _ _).trans ((List.suffix_append _ _).trans (List.suffix_append _ _))
  | behind =>
    rw [stream, buffer_bytes]
    exact (List.suffix_append _ _).trans (List.suffix_append _ _)
  | empty _ _ _ hzero =>
    have hnil : m.bytes = [] := by
      rw [← List.length_eq_zero_iff, length_bytes, hzero]
    rw [hnil]
    exact List.nil_suffix

theorem stream_of_send {m : Message} {r : Written} (h : s.send m r = some t) :
    s.stream <+: t.stream := by
  cases sends h with
  | dropped => exact List.prefix_rfl
  | whole f hd => simp [stream, hd.bytes_eq]
  | part n hd => simp [stream, hd.bytes_eq, buffer, enableWriting]
  | failed e hd => simp [stream, hd.bytes_eq, buffer, enableWriting]
  | behind => simp [stream, buffer, enableWriting]
  | empty => exact List.prefix_rfl

theorem stream_of_sendFile {file : File} {r : Written} (h : s.sendFile file r = some t) :
    s.stream <+: t.stream := by
  cases sendsFile h with
  | dropped => exact List.prefix_rfl
  | unopened => exact List.prefix_rfl
  | whole f _ _ hd => simp [stream, hd.bytes_eq]
  | part _ _ hd => simp [stream, hd.bytes_eq, keep, enableWriting]
  | behind => exact List.prefix_rfl
  | empty => exact List.prefix_rfl

theorem stream_of_handleWrite {r : Written} (h : s.handleWrite r = some t) :
    s.stream <+: t.stream := by
  cases writes h with
  | finished => simp [stream]
  | unfinished => exact List.prefix_rfl
  | flushed b f _ _ _ _ hb => simp [stream, hb]
  | part b _ _ _ _ hb => simp [stream, hb]
  | stalled => exact List.prefix_rfl

/-- **The output only grows**, at its end. -/
theorem stream_of_step {a : Action} (hspent : s.Spent) (h : s.step a = some t) :
    s.stream <+: t.stream := by
  cases a with
  | send m r => exact stream_of_send h
  | sendFile file r => exact stream_of_sendFile h
  | setWriteCompleteCallback on =>
    cases h
    exact List.prefix_rfl
  | handleWrite r =>
    rw [Sender.step] at h
    split_ifs at h
    exact stream_of_handleWrite h
  | callbackReturns =>
    obtain ⟨f, -, ht⟩ := hspent.callbackReturns h
    rw [ht]
    exact List.prefix_rfl

/-- Once the connection is not in state `kConnected` and nothing is pending, this stays so. -/
theorem not_pending_of_step {a : Action} (hspent : s.Spent) (hwatched : s.Watched)
    (hstate : s.conn.state ≠ .kConnected) (hp : ¬ s.Pending) (h : s.step a = some t) :
    ¬ t.Pending := by
  cases a with
  | send m r =>
    rw [step, send, if_neg hstate] at h
    cases h
    exact hp
  | sendFile file r =>
    rw [step, sendFile, if_neg hstate] at h
    cases h
    exact hp
  | setWriteCompleteCallback on =>
    cases h
    exact hp
  | handleWrite r =>
    -- with nothing pending, write interest is off
    have hoff : ¬ s.conn.writing = true := fun hw => hp (hwatched.mpr hw)
    rw [step, handleWrite, if_neg hoff] at h
    split_ifs at h
  | callbackReturns =>
    obtain ⟨f, -, ht⟩ := hspent.callbackReturns h
    rw [ht]
    exact hp

end Sender

/-- The thread has passed the check of `send`, and has not called `sendInLoop` or queued it. -/
def Call.isSending : Call → Bool
  | .sending _ _ => true
  | _ => false

namespace SharedSender

variable {s t : SharedSender}

/-! ## What is on its way -/

/-- A message has passed the check of `send` and has not come to `sendInLoop`. -/
def OnTheWay (s : SharedSender) : Prop :=
  (∃ tid, (s.calls tid).isSending = true) ∨ ∃ f ∈ s.functors, f.isShutdown = false

/-- The message that the next functor points to. -/
def pointed (s : SharedSender) : Option Message :=
  match s.functors with
  | .sendInLoop m :: _ => some m
  | _ => none

/-- What sending and `shutdown` promise: no message is discarded, and when the write side has been
shut down, all messages have come to `sendInLoop` and their bytes have been accepted. -/
structure Delivered (s : SharedSender) : Prop where
  dropped : s.dropped = []
  arrived : 0 < s.shutdownWrites → ¬ s.OnTheWay
  accepted : 0 < s.shutdownWrites → ∀ p ∈ s.carried, p.2 <+: s.sender.accepted.drop p.1

/-- The actions that deliver: no other thread calls `send(Buffer*)`, `state_` is set when no message
is on its way, a functor finds the memory that it points to as it was, and no write event strands
the buffer. -/
def SendsDone (s : SharedSender) : Action → Prop
  | .send tid overload _ => overload = .buffer → tid = s.threadId
  | .disconnect _ => ¬ s.OnTheWay
  | .runFunctor mem _ => ∀ m ∈ s.pointed, mem.read m.buf m.len = m.bytes
  | .handleWrite r => ¬ s.sender.StrandsBuffer r
  | _ => True

/-- The invariant. -/
structure Delivering (s : SharedSender) : Prop where
  spent : s.sender.Spent
  watched : s.sender.Watched
  /-- The messages are in the output where they were put. -/
  carried : ∀ p ∈ s.carried, p.2 <+: s.sender.stream.drop p.1
  dropped : s.dropped = []
  /-- Messages are on their way only while the connection is in state `kConnected`. -/
  connected : s.OnTheWay → s.sender.conn.state = .kConnected
  /-- `runInLoop(shutdownInLoop)` comes after `state_=kDisConnecting`. -/
  disconnecting : ∀ tid, s.disconnecting tid = true → s.sender.conn.state ≠ .kConnected
  queued : 0 < s.queued → s.sender.conn.state ≠ .kConnected
  /-- The write side is shut down when nothing is pending. -/
  closed : 0 < s.shutdownWrites → ¬ s.sender.Pending ∧ s.sender.conn.state ≠ .kConnected

theorem Delivering.delivered (h : s.Delivering) : s.Delivered := by
  refine ⟨h.dropped, fun hw hway => (h.closed hw).2 (h.connected hway), fun hw p hp => ?_⟩
  have hempty : s.sender.conn.outputBuffer.bytes = [] :=
    not_ne_iff.mp fun hne => (h.closed hw).1 (.inl hne)
  have hcarried := h.carried p hp
  rwa [Sender.stream, hempty, List.append_nil] at hcarried

theorem delivering_established (threadId : ℕ) (callback : Bool) :
    (established threadId callback).Delivering where
  spent := Sender.spent_established callback
  watched := Sender.watched_established callback
  carried := by simp [established]
  dropped := rfl
  connected := fun _ => rfl
  disconnecting := fun tid h => nomatch h
  queued := fun h => absurd h (lt_irrefl 0)
  closed := fun h => absurd h (lt_irrefl 0)

/-- A thread moves. -/
theorem Delivering.goTo (h : s.Delivering) {tid : ℕ} {c : Call}
    (hsend : c.isSending = true → s.sender.conn.state = .kConnected)
    (hdis : c.isDisconnecting = true → s.sender.conn.state ≠ .kConnected) :
    (s.goTo tid c).Delivering := by
  refine ⟨h.spent, h.watched, h.carried, h.dropped, ?_, ?_, h.queued, h.closed⟩
  · rintro (⟨tid', hc⟩ | hf)
    · by_cases heq : tid' = tid
      · subst heq
        rw [goTo_calls_self] at hc
        exact hsend hc
      · rw [goTo_calls_of_ne s heq] at hc
        exact h.connected (.inl ⟨tid', hc⟩)
    · exact h.connected (.inr hf)
  · intro tid' hd
    rw [goTo_disconnecting, Function.update_apply] at hd
    split_ifs at hd
    · exact hdis hd
    · exact h.disconnecting tid' hd

/-- A thread goes where neither is asked of it. -/
theorem Delivering.goTo_of_not (h : s.Delivering) {tid : ℕ} {c : Call}
    (hsend : c.isSending = false) (hdis : c.isDisconnecting = false) :
    (s.goTo tid c).Delivering :=
  h.goTo (fun hc => absurd (hsend.symm.trans hc) Bool.false_ne_true)
    fun hc => absurd (hdis.symm.trans hc) Bool.false_ne_true

/-- The functors change. -/
theorem Delivering.setFunctors (h : s.Delivering) {functors : List SendFunctor}
    (hsend : ∀ f ∈ functors, f.isShutdown = false →
      f ∈ s.functors ∨ s.sender.conn.state = .kConnected)
    (hshut : 0 < functors.countP SendFunctor.isShutdown → s.sender.conn.state ≠ .kConnected) :
    Delivering { s with functors := functors } := by
  refine ⟨h.spent, h.watched, h.carried, h.dropped, ?_, h.disconnecting, hshut, h.closed⟩
  rintro (hc | ⟨f, hf, hs⟩)
  · exact h.connected (.inl hc)
  · rcases hsend f hf hs with hold | hstate
    · exact h.connected (.inr ⟨f, hold, hs⟩)
    · exact hstate

/-- The first functor is taken out. -/
theorem Delivering.tail (h : s.Delivering) {f : SendFunctor} {functors : List SendFunctor}
    (hf : s.functors = f :: functors) : Delivering { s with functors := functors } := by
  refine h.setFunctors (fun g hg _ => .inl (hf ▸ List.mem_cons_of_mem f hg)) fun hpos => h.queued ?_
  rw [SharedSender.queued, hf, List.countP_cons]
  omega

/-- The connection does something in the loop thread. -/
theorem Delivering.sender (h : s.Delivering) {u : Sender} {a : Sender.Action}
    (hu : s.sender.step a = some u) (hwatched : u.Watched) :
    Delivering { s with sender := u } := by
  have hstate := Sender.state_of_step h.spent hu
  refine ⟨h.spent.step hu, hwatched, fun p hp => ?_, h.dropped, fun hw => ?_, fun tid hd => ?_,
    fun hq => ?_, fun hw => ?_⟩
  · exact (h.carried p hp).trans ((Sender.stream_of_step h.spent hu).drop p.1)
  · exact hstate.trans (h.connected hw)
  · rw [hstate]
    exact h.disconnecting tid hd
  · rw [hstate]
    exact h.queued hq
  · rw [hstate]
    obtain ⟨hp, hne⟩ := h.closed hw
    exact ⟨Sender.not_pending_of_step h.spent h.watched hne hp hu, hne⟩

/-- A message comes to `sendInLoop` in state `kConnected`, and in the memory as it was. -/
theorem Delivering.sendInLoop (h : s.Delivering) (hstate : s.sender.conn.state = .kConnected)
    {m : Message} {mem : Memory} {r : Written} (hmem : mem.read m.buf m.len = m.bytes)
    (hs : s.sendInLoop m mem r = some t) : t.Delivering := by
  rw [SharedSender.sendInLoop, if_pos hstate] at hs
  obtain ⟨u, hu, rfl⟩ := Option.map_eq_some_iff.mp hs
  have hsuffix : m.bytes <:+ u.stream := hmem ▸ Sender.bytes_suffix_stream hstate hu
  have hsent := h.sender (a := .send { m with mem := mem } r) hu (h.watched.send hu).1
  refine ⟨hsent.spent, hsent.watched, fun p hp => ?_, hsent.dropped, hsent.connected,
    hsent.disconnecting, hsent.queued, hsent.closed⟩
  rcases List.mem_append.mp hp with hp | hp
  · exact hsent.carried p hp
  · -- the message is at the end of the output
    rw [List.mem_singleton.mp hp]
    have hdrop := List.suffix_iff_eq_drop.mp hsuffix
    rw [Sender.length_bytes] at hdrop
    exact hdrop ▸ List.prefix_rfl

/-- `shutdownInLoop`, after `state_=kDisConnecting`. -/
theorem Delivering.shutdownInLoop (h : s.Delivering) (hstate : s.sender.conn.state ≠ .kConnected) :
    s.shutdownInLoop.Delivering := by
  rw [SharedSender.shutdownInLoop]
  split_ifs with hoff
  · exact ⟨h.spent, h.watched, h.carried, h.dropped, h.connected, h.disconnecting, h.queued,
      fun _ => ⟨h.watched.not_pending hoff, hstate⟩⟩
  · exact h

/-- The next functor: a message that is still on its way comes in state `kConnected`. -/
theorem Delivering.runFunctor (h : s.Delivering) {mem : Memory} {r : Written}
    (ha : s.SendsDone (.runFunctor mem r)) (hs : s.runFunctor mem r = some t) :
    t.Delivering := by
  rw [SharedSender.runFunctor] at hs
  split_ifs at hs
  split at hs
  · cases hs
  · next m functors hf =>
    have hstate := h.connected (.inr ⟨_, hf ▸ List.mem_cons_self, rfl⟩)
    exact (h.tail hf).sendInLoop hstate (ha m (by rw [pointed, hf]; rfl)) hs
  · next m functors hf =>
    have hstate := h.connected (.inr ⟨_, hf ▸ List.mem_cons_self, rfl⟩)
    exact (h.tail hf).sendInLoop hstate rfl hs
  · next functors hf =>
    -- `shutdownInLoop` was queued after `state_` was set
    have hstate : s.sender.conn.state ≠ .kConnected := by
      refine h.queued ?_
      rw [SharedSender.queued, hf, List.countP_cons_of_pos rfl]
      exact Nat.succ_pos _
    cases hs
    exact (h.tail hf).shutdownInLoop hstate

/-- A message goes on to `sendInLoop` or to the queue. -/
theorem Delivering.sendOn (h : s.Delivering) {tid : ℕ} {r : Written}
    (hs : s.sendOn tid r = some t) :
    t.Delivering := by
  rw [SharedSender.sendOn] at hs
  split at hs
  · next overload m hcall =>
    have hstate := h.connected (.inl ⟨tid, by rw [hcall]; rfl⟩)
    have hgo : (s.goTo tid .idle).Delivering := h.goTo_of_not rfl rfl
    split_ifs at hs
    · exact hgo.sendInLoop hstate rfl hs
    · cases hs
      refine hgo.setFunctors (fun f _ _ => .inr hstate) fun hpos => h.queued ?_
      have hnot : (overload.functor m).isShutdown = false := by cases overload <;> rfl
      simpa [List.countP_append, hnot, SharedSender.queued] using hpos
  · cases hs

theorem Delivering.send (h : s.Delivering) {tid : ℕ} {overload : Overload} {m : Message}
    (hs : s.send tid overload m = some t) : t.Delivering := by
  rw [SharedSender.send] at hs
  split at hs
  · split_ifs at hs with hstate
    · cases hs
      exact h.goTo (fun _ => hstate) (by rintro ⟨⟩)
    · cases hs
      exact h
  · cases hs

theorem Delivering.shutdown (h : s.Delivering) {tid : ℕ} (hs : s.shutdown tid = some t) :
    t.Delivering := by
  rw [SharedSender.shutdown] at hs
  split at hs
  · split_ifs at hs
    · cases hs
      exact h.goTo_of_not rfl rfl
    · cases hs
      exact h
  · cases hs

/-- `state_` is set when no message is on its way. -/
theorem Delivering.disconnect (h : s.Delivering) {tid : ℕ} (hway : ¬ s.OnTheWay)
    (hs : s.disconnect tid = some t) : t.Delivering := by
  rw [SharedSender.disconnect] at hs
  split at hs
  · next hcall =>
    cases hs
    have hne : State.kDisConnecting ≠ State.kConnected := by decide
    refine ⟨h.spent, h.watched, h.carried, h.dropped, fun hw => absurd ?_ hway, fun _ _ => hne,
      fun _ => hne, fun hw => ⟨(h.closed hw).1, hne⟩⟩
    -- no thread has come into `send` by this
    rcases hw with ⟨tid', hc⟩ | hf
    · by_cases heq : tid' = tid
      · subst heq
        rw [goTo_calls_self] at hc
        cases hc
      · rw [goTo_calls_of_ne s heq] at hc
        exact .inl ⟨tid', hc⟩
    · exact .inr hf
  · cases hs

theorem Delivering.shutdownOn (h : s.Delivering) {tid : ℕ} (hs : s.shutdownOn tid = some t) :
    t.Delivering := by
  rw [SharedSender.shutdownOn] at hs
  split at hs
  · next hcall =>
    have hstate := h.disconnecting tid (by rw [SharedSender.disconnecting, hcall]; rfl)
    have hgo : (s.goTo tid .idle).Delivering := h.goTo_of_not rfl rfl
    split_ifs at hs
    · cases hs
      exact hgo.shutdownInLoop hstate
    · cases hs
      refine hgo.setFunctors (fun f hf hs => ?_) fun _ => hstate
      rcases List.mem_append.mp hf with hf | hf
      · exact .inl hf
      · rw [List.mem_singleton.mp hf] at hs
        cases hs
  · cases hs

theorem Delivering.act (h : s.Delivering) {a : Sender.Action} (ha : s.sender.KeepsWatch a)
    (hs : s.act a = some t) : t.Delivering := by
  rw [SharedSender.act] at hs
  split_ifs at hs
  obtain ⟨u, hu, rfl⟩ := Option.map_eq_some_iff.mp hs
  exact h.sender hu ((h.watched.step_iff h.spent hu).mpr ha).1

/-- **One action.** -/
theorem Delivering.step (h : s.Delivering) {a : Action} (ha : s.SendsDone a)
    (hs : s.step a = some t) : t.Delivering := by
  cases a with
  | send tid overload m => exact h.send hs
  | sendOn tid r => exact h.sendOn hs
  | shutdown tid => exact h.shutdown hs
  | disconnect tid => exact h.disconnect ha hs
  | shutdownOn tid => exact h.shutdownOn hs
  | runFunctor mem r => exact h.runFunctor ha hs
  | handleWrite r => exact h.act (a := .handleWrite r) ha hs
  | sendFile file r => exact h.act (a := .sendFile file r) trivial hs
  | setWriteCompleteCallback on => exact h.act (a := .setWriteCompleteCallback on) trivial hs
  | callbackReturns => exact h.act (a := .callbackReturns) trivial hs

/-- **When nothing sent before a shutdown is dropped.** In every run of sends, shutdowns and write
events, by any threads, in which `send(Buffer*)` is called by the loop thread only, `state_` is set
to `kDisConnecting` only when no message is on its way from the check of `send` to `sendInLoop`, the
memory that is given to `send(const void*, size_t)` does not change until its functor runs, and no
write event finishes a file in front of buffered bytes: no message is discarded, and when the write
side is shut down all of them have been accepted. -/
theorem delivered_of_sendsDone {threadId : ℕ} {callback : Bool} {as : List Action}
    (hg : Runs.Guarded step SendsDone (established threadId callback) as)
    (h : Runs.exec step (established threadId callback) as = some s) : s.Delivered :=
  (Runs.exec_invariant (delivering_established threadId callback)
    (fun _ _ _ ht ha hs => ht.step ha hs) hg h).delivered

/-- Another thread sends a message, which is written by its functor, and begins a shutdown. -/
def sendThenShutdown : List Action :=
  [.send 1 .string Sender.abcde, .sendOn 1 (.count 0), .runFunctor Sender.abcde.mem (.count 5),
    .shutdown 1]

/-- The shutdown goes on. -/
def finishShutdown : List Action :=
  [.disconnect 1, .shutdownOn 1, .runFunctor Sender.abcde.mem (.count 0)]

/-- The functor of the message has run when the thread sets `state_`, and no functor points to
memory. -/
theorem guarded_arrived :
    Runs.Guarded step SendsDone (established 0 false) (sendThenShutdown ++ finishShutdown) := by
  have hfunctor {as : List Action} {mem : Memory} {r : Written}
      (hg : Runs.Guarded step SendsDone (established 0 false) as)
      (hobs : (Runs.exec step (established 0 false) as).map (fun s => s.pointed.isNone) =
        some true) : Runs.Guarded step SendsDone (established 0 false)
          (as ++ [.runFunctor mem r]) := by
    refine hg.concat fun t ht m hm => ?_
    rw [ht, Option.map_some, Option.some_inj, Option.mem_def.mp hm] at hobs
    cases hobs
  have hsend : Runs.Guarded step SendsDone (established 0 false)
      ([] ++ [.send 1 .string Sender.abcde]) := by
    refine Runs.guarded_nil.concat fun t _ hbuffer => ?_
    cases hbuffer
  have hsent : Runs.Guarded step SendsDone (established 0 false)
      ([] ++ [.send 1 .string Sender.abcde] ++ [.sendOn 1 (.count 0)]) :=
    hsend.concat fun _ _ => trivial
  have hfirst : Runs.Guarded step SendsDone (established 0 false) sendThenShutdown :=
    (hfunctor hsent (by decide +kernel)).concat fun _ _ => trivial
  have hset : Runs.Guarded step SendsDone (established 0 false)
      (sendThenShutdown ++ [.disconnect 1]) := by
    refine hfirst.concat fun t ht => ?_
    have hobs : (Runs.exec step (established 0 false) sendThenShutdown).map
        (fun s => ((s.calls 1).isSending, s.functors.isEmpty)) = some (false, true) := by
      decide +kernel
    rw [ht, Option.map_some, Option.some_inj, Prod.mk.injEq] at hobs
    -- only thread 1 has moved, and its functor has run
    rintro (⟨tid, hsending⟩ | ⟨f, hf, -⟩)
    · by_cases htid : tid = 1
      · rw [htid, hobs.1] at hsending
        cases hsending
      · rw [idle_of_exec (fun a ha => ?_) ht] at hsending
        · cases hsending
        · simp only [sendThenShutdown, List.mem_cons, List.not_mem_nil, or_false] at ha
          rcases ha with rfl | rfl | rfl | rfl <;> simp [Action.thread?, Ne.symm htid]
    · rw [List.isEmpty_iff.mp hobs.2] at hf
      cases hf
  have hqueue : Runs.Guarded step SendsDone (established 0 false)
      (sendThenShutdown ++ [.disconnect 1] ++ [.shutdownOn 1]) := hset.concat fun _ _ => trivial
  exact hfunctor hqueue (by decide +kernel)

/-- The theorem at work. -/
theorem delivered_of_sendsDone_arrived : ∃ s : SharedSender,
    Runs.exec step (established 0 false) (sendThenShutdown ++ finishShutdown) = some s ∧
      s.shutdownWrites = 1 ∧ s.Delivered := by
  have hrun : (Runs.exec step (established 0 false) (sendThenShutdown ++ finishShutdown)).map
      shutdownWrites = some 1 := by decide +kernel
  obtain ⟨s, hs, hwrites⟩ := Option.map_eq_some_iff.mp hrun
  exact ⟨s, hs, hwrites, delivered_of_sendsDone guarded_arrived hs⟩

/-- **A send and a shutdown by another thread**: `shutdown` sets `state_` before the functor of
`send` has run, and the functor discards the message. -/
theorem not_delivered : ∃ s : SharedSender,
    Runs.exec step (established 0 false)
      [.send 1 .string Sender.abcde, .sendOn 1 (.count 0), .shutdown 1, .disconnect 1, .shutdownOn 1,
        .runFunctor Sender.abcde.mem (.count 5), .runFunctor Sender.abcde.mem (.count 0)] = some s ∧
      s.shutdownWrites = 1 ∧ s.sender.accepted = [] ∧ ¬ s.Delivered := by
  have hrun : (Runs.exec step (established 0 false)
      [.send 1 .string Sender.abcde, .sendOn 1 (.count 0), .shutdown 1, .disconnect 1, .shutdownOn 1,
        .runFunctor Sender.abcde.mem (.count 5), .runFunctor Sender.abcde.mem (.count 0)]).map
      (fun s => (s.shutdownWrites, s.sender.accepted, s.dropped)) =
      some (1, [], [Sender.abcde.bytes]) := by decide +kernel
  obtain ⟨s, hs, hobs⟩ := Option.map_eq_some_iff.mp hrun
  simp only [Prod.mk.injEq] at hobs
  obtain ⟨hwrites, haccepted, hdropped⟩ := hobs
  exact ⟨s, hs, hwrites, haccepted,
    fun hdelivered => List.cons_ne_nil _ _ (hdropped.symm.trans hdelivered.dropped)⟩

end SharedSender

end Net

end Muduo
