import Muduo.Foundations.Progress
import Muduo.Net.TcpPair

/-! # What was sent can be received

In a run without a shutdown nothing gets stuck between the two ends of a connection: from every
state the two loop threads can go on, with the functors that are queued, the write events that are
watched and the read events, until all that was sent has been received (**`TcpPair.can_receive`**).

A byte costs three in `outputBuffer_`, one in the kernels and four in a functor, so each of these
actions costs more than it leaves behind. -/

namespace Muduo

namespace Net

namespace Sender

variable {s t : Sender}

/-- What was sent only grows, at its end. -/
theorem sent_of_step {a : Action} (hspent : s.Spent) (h : s.step a = some t) :
    s.sent <+: t.sent := by
  have hcomplete (u : Sender) (f : Frame) : (u.complete f).sent = u.sent := by
    unfold complete
    split_ifs <;> rfl
  cases a with
  | send m r => cases sends h <;> simp [hcomplete, buffer, enableWriting]
  | sendFile file r => cases sendsFile h <;> simp [hcomplete, keep, enableWriting]
  | setWriteCompleteCallback on =>
    cases h
    exact List.prefix_rfl
  | handleWrite r =>
    rw [Sender.step] at h
    split_ifs at h
    cases writes h <;> simp [hcomplete]
  | callbackReturns =>
    obtain ⟨f, -, ht⟩ := hspent.callbackReturns h
    rw [ht]

theorem Intact.spent (h : s.Intact) : s.Spent := by
  intro f hf
  have hsettled := h.settled f hf
  cases f with
  | sendInLoop m nwrote remain faultError => exact hsettled
  | sendFileInLoop => exact absurd hsettled id
  | handleWrite => rfl

/-- Without a file no write event strands the buffer. -/
theorem Intact.keepsWatch (h : s.Intact) (a : Action) : s.KeepsWatch a := by
  cases a with
  | handleWrite r =>
    rintro ⟨file, hfile, -⟩
    rw [h.noFile] at hfile
    cases hfile
  | _ => trivial

/-- What the output costs. -/
def cost (s : Sender) : ℕ :=
  3 * s.conn.outputBuffer.bytes.length + s.accepted.length + s.frames.length

/-- At most one call is entered. -/
theorem length_complete_le (u : Sender) (f : Frame) :
    (u.complete f).frames.length ≤ u.frames.length + 1 := by
  rw [length_frames_complete]
  split_ifs <;> omega

/-- **A message can be sent**, written as a whole or buffered, and costs at most what its functor
does. -/
theorem can_send (s : Sender) (hstate : s.conn.state = .kConnected) (m : Message) :
    ∃ t, s.send m (.count m.len) = some t ∧ t.cost ≤ s.cost + 3 * m.len + 1 := by
  obtain ⟨t, ht⟩ : ∃ t, s.send m (.count m.len) = some t := by
    by_cases hdirect : s.DirectWrite
    · rw [send_direct hdirect]
      unfold accept
      rw [if_pos (by simp [Written.taken])]
      exact ⟨_, rfl⟩
    · exact ⟨_, send_buffered hstate hdirect m _⟩
  refine ⟨t, ht, ?_⟩
  cases sends ht with
  | dropped _ hnot => exact absurd hstate hnot
  | whole f hd =>
    have hframes := length_complete_le { s with
      sent := s.sent ++ m.bytes, accepted := s.accepted ++ m.bytes } f
    simp only [cost, complete_conn, complete_accepted, List.length_append, length_bytes] at hframes ⊢
    omega
  | part n hd hlt => exact absurd hlt (lt_irrefl _)
  | behind =>
    simp only [cost, buffer_bytes, buffer_accepted, List.length_append, length_bytes]
    simp only [buffer, enableWriting]
    omega
  | empty =>
    simp only [cost]
    omega

/-- **A write event can take all the buffered bytes.** -/
theorem can_handleWrite (hintact : s.Intact) (hwatched : s.Watched)
    (hbytes : s.conn.outputBuffer.bytes ≠ []) :
    ∃ t, s.handleWrite (.count s.conn.outputBuffer.bytes.length) = some t ∧ t.cost < s.cost := by
  have hpos : 0 < s.conn.outputBuffer.bytes.length := List.length_pos_iff.mpr hbytes
  have hwriting : s.conn.writing = true := hwatched.mp (.inl hbytes)
  obtain ⟨t, ht⟩ : ∃ t, s.handleWrite (.count s.conn.outputBuffer.bytes.length) = some t := by
    unfold handleWrite
    rw [if_pos hwriting, hintact.noFile]
    unfold handleWriteBuffer accept
    simp [Written.taken]
  refine ⟨t, ht, ?_⟩
  cases writes ht with
  | finished file _ _ hfile => simp [hintact.noFile] at hfile
  | unfinished file _ hfile => simp [hintact.noFile] at hfile
  | flushed b f _ _ _ _ hb =>
    have hframes := length_complete_le { s with
      conn := { s.conn with outputBuffer := b, writing := false }
      accepted := s.accepted ++ s.conn.outputBuffer.bytes } f
    simp only [cost, complete_conn, complete_accepted, List.length_append, hb,
      List.length_nil] at hframes ⊢
    omega
  | part b _ _ _ hlt => exact absurd hlt (lt_irrefl _)
  | stalled _ _ hzero => exact absurd hzero hpos.ne'

end Sender

namespace SharedSender

variable {s t : SharedSender}

/-! ## Runs without a shutdown -/

/-- The actions of such runs; `send(Buffer*)` is called by the loop thread only. -/
def Sends (s : SharedSender) : Action → Prop
  | .shutdown _ => False
  | .send tid overload _ => overload = .buffer → tid = s.threadId
  | a => s.Counts a

/-- The invariant: the connection stays `kConnected`, and no thread and no functor is on its way to
`shutdownInLoop`. -/
structure Sending (s : SharedSender) : Prop where
  intact : s.sender.Intact
  watched : s.sender.Watched
  state : s.sender.conn.state = .kConnected
  calls : ∀ tid, s.calls tid = .idle ∨ (s.calls tid).isSending = true
  functors : ∀ f ∈ s.functors, f.isShutdown = false
  shutdownWrites : s.shutdownWrites = 0

theorem sending_established (threadId : ℕ) (callback : Bool) :
    (established threadId callback).Sending where
  intact := Sender.intact_established callback
  watched := Sender.watched_established callback
  state := rfl
  calls := fun _ => .inl rfl
  functors := by simp [established]
  shutdownWrites := rfl

theorem Sending.goTo (h : s.Sending) {tid : ℕ} {c : Call} (hc : c = .idle ∨ c.isSending = true) :
    (s.goTo tid c).Sending := by
  refine ⟨h.intact, h.watched, h.state, fun tid' => ?_, h.functors, h.shutdownWrites⟩
  by_cases heq : tid' = tid
  · rw [heq, goTo_calls_self]
    exact hc
  · rw [goTo_calls_of_ne s heq]
    exact h.calls tid'

/-- The connection does something in the loop thread. -/
theorem Sending.sender (h : s.Sending) {b : Sender.Action} {u : Sender} (hb : s.sender.Allowed b)
    (hu : s.sender.step b = some u) : Sending { s with sender := u } := by
  have hspent := h.intact.spent
  exact ⟨h.intact.step hb hu, ((h.watched.step_iff hspent hu).mpr (h.intact.keepsWatch b)).1,
    (Sender.state_of_step hspent hu).trans h.state, h.calls, h.functors, h.shutdownWrites⟩

theorem Sending.sendInLoop (h : s.Sending) {m : Message} {mem : Memory} {r : Written}
    (hr : s.sender.DirectWrite → ∃ n, r = .count n) (hs : s.sendInLoop m mem r = some t) :
    t.Sending := by
  unfold SharedSender.sendInLoop at hs
  rw [if_pos h.state] at hs
  obtain ⟨u, hu, rfl⟩ := Option.map_eq_some_iff.mp hs
  have hsent := h.sender (b := .send { m with mem := mem } r) hr hu
  exact ⟨hsent.intact, hsent.watched, hsent.state, hsent.calls, hsent.functors,
    hsent.shutdownWrites⟩

theorem Sending.act (h : s.Sending) {b : Sender.Action} (hb : s.sender.Allowed b)
    (hs : s.act b = some t) : t.Sending := by
  unfold SharedSender.act at hs
  split_ifs at hs
  obtain ⟨u, hu, rfl⟩ := Option.map_eq_some_iff.mp hs
  exact h.sender hb hu

theorem Sending.tail (h : s.Sending) {f : SendFunctor} {functors : List SendFunctor}
    (hf : s.functors = f :: functors) : Sending { s with functors := functors } :=
  ⟨h.intact, h.watched, h.state, h.calls, fun g hg => h.functors g (hf ▸ List.mem_cons_of_mem f hg),
    h.shutdownWrites⟩

/-- A thread that is in a call is sending. -/
theorem Sending.not_calls (h : s.Sending) {tid : ℕ} {c : Call} (hcall : s.calls tid = c)
    (hidle : c ≠ .idle) (hc : c.isSending = false) : False := by
  rcases h.calls tid with h0 | h0 <;> rw [hcall] at h0
  · exact hidle h0
  · simp [hc] at h0

/-- **One action.** -/
theorem Sending.step (h : s.Sending) {a : Action} (ha : s.Sends a) (hs : s.step a = some t) :
    t.Sending := by
  cases a with
  | send tid overload m =>
    simp only [SharedSender.step, send] at hs
    split at hs
    · split_ifs at hs <;> cases hs
      · exact h.goTo (.inr rfl)
      · exact h
    · cases hs
  | sendOn tid r =>
    simp only [SharedSender.step, sendOn] at hs
    split at hs
    · next overload m hcall =>
      have hgo : (s.goTo tid .idle).Sending := h.goTo (.inl rfl)
      split_ifs at hs
      · exact hgo.sendInLoop (fun hdirect => ha hdirect r rfl) hs
      · cases hs
        refine ⟨h.intact, h.watched, h.state, hgo.calls, fun f hf => ?_, h.shutdownWrites⟩
        rcases List.mem_append.mp hf with hf | hf
        · exact h.functors f hf
        · rw [List.mem_singleton.mp hf]
          cases overload <;> rfl
    · cases hs
  | shutdown tid => exact absurd ha id
  | disconnect tid =>
    simp only [SharedSender.step, disconnect] at hs
    split at hs
    · next hcall => exact (h.not_calls hcall (by simp) rfl).elim
    · cases hs
  | shutdownOn tid =>
    simp only [SharedSender.step, shutdownOn] at hs
    split at hs
    · next hcall => exact (h.not_calls hcall (by simp) rfl).elim
    · cases hs
  | runFunctor mem r =>
    have hr : s.sender.DirectWrite → ∃ n, r = .count n := fun hdirect => ha hdirect r rfl
    simp only [SharedSender.step, runFunctor] at hs
    split_ifs at hs
    split at hs
    · cases hs
    · next m functors hf => exact (h.tail hf).sendInLoop hr hs
    · next m functors hf => exact (h.tail hf).sendInLoop hr hs
    · next functors hf =>
      have hnot := h.functors .shutdownInLoop (hf ▸ List.mem_cons_self)
      simp [SendFunctor.isShutdown] at hnot
  | handleWrite r => exact h.act (b := .handleWrite r) trivial hs
  | sendFile file r => exact absurd ha id
  | setWriteCompleteCallback on => exact h.act (b := .setWriteCompleteCallback on) trivial hs
  | callbackReturns => exact h.act (b := .callbackReturns) trivial hs

/-- An action without an answer of `write`. -/
theorem sends_of_result {a : Action} (ha : a.result = none) (hfile : ∀ file r, a ≠ .sendFile file r)
    (hshutdown : ∀ tid, a ≠ .shutdown tid) (hsend : ∀ tid overload m, a ≠ .send tid overload m) :
    s.Sends a := by
  have hresult {P : Written → Prop} : ∀ r ∈ a.result, P r := by
    simp [ha]
  cases a with
  | shutdown tid => exact hshutdown tid rfl
  | sendFile file r => exact hfile file r rfl
  | send tid overload m => exact absurd rfl (hsend tid overload m)
  | _ => exact fun _ => hresult

/-- What the functors cost. -/
def functorCost : SendFunctor → ℕ
  | .sendInLoop m | .sendInLoopAsString m => 4 * m.len + 3
  | .shutdownInLoop => 0

/-- What the end that sends has still to do. -/
def cost (s : SharedSender) : ℕ := (s.functors.map functorCost).sum + s.sender.cost

theorem length_accepted_le_cost (s : SharedSender) : s.sender.accepted.length ≤ s.cost := by
  simp only [cost, Sender.cost]
  omega

/-- A message comes to `sendInLoop`. -/
theorem Sending.can_sendInLoop (h : s.Sending) (m : Message) :
    ∃ t, s.sendInLoop m m.mem (.count m.len) = some t ∧ t.Sending ∧ t.calls = s.calls ∧
      t.threadId = s.threadId ∧ t.cost ≤ s.cost + 3 * m.len + 1 := by
  obtain ⟨u, hu, hcost⟩ := s.sender.can_send h.state m
  have hs : s.sendInLoop m m.mem (.count m.len) = some { s with
      sender := u, carried := s.carried ++ [(u.stream.length - m.len, m.bytes)] } := by
    unfold SharedSender.sendInLoop
    rw [if_pos h.state, hu, Option.map_some]
  refine ⟨_, hs, h.sendInLoop (fun _ => ⟨_, rfl⟩) hs, rfl, rfl, ?_⟩
  simp only [cost]
  omega

/-- **The loop thread comes out of `send`.** -/
theorem Sending.can_sendOn (h : s.Sending) (hbusy : s.LoopIdle = false) :
    ∃ r t, s.step (.sendOn s.threadId r) = some t ∧ t.Sending ∧ t.LoopIdle = true := by
  have hcall := h.calls s.threadId
  cases hc : s.calls s.threadId with
  | idle => simp [LoopIdle, hc] at hbusy
  | shuttingDown => simp [hc, Call.isSending] at hcall
  | disconnecting => simp [hc, Call.isSending] at hcall
  | sending overload m =>
    have hgo : (s.goTo s.threadId .idle).Sending := h.goTo (.inl rfl)
    obtain ⟨t, ht, hsending, hcalls, hid, -⟩ := hgo.can_sendInLoop m
    refine ⟨.count m.len, t, ?_, hsending, ?_⟩
    · simp only [SharedSender.step, sendOn, hc, true_or, if_true]
      exact ht
    · have hself : (s.goTo s.threadId .idle).calls (s.goTo s.threadId .idle).threadId = .idle :=
        goTo_calls_self s _ _
      unfold LoopIdle
      rw [hcalls, hid, hself]

/-- **The loop thread can go on** while a call waits for its callback, a functor is queued or bytes
are buffered. -/
theorem Sending.can_step (h : s.Sending) (hidle : s.LoopIdle = true)
    (hleft : ¬(s.sender.frames = [] ∧ s.functors = [] ∧ s.sender.conn.outputBuffer.bytes = [])) :
    ∃ a t, (a = .callbackReturns ∨ (∃ mem r, a = .runFunctor mem r) ∨
        ∃ r, a = .handleWrite r) ∧
      s.step a = some t ∧ t.Sending ∧ t.LoopIdle = true ∧ t.cost < s.cost := by
  cases hframes : s.sender.frames with
  | cons f frames =>
    have hf : f.remain = 0 := h.intact.spent f (hframes ▸ List.mem_cons_self)
    have hback := Sender.step_callbackReturns hframes hf
    have hs : s.step .callbackReturns =
        some { s with sender := { s.sender with frames := frames } } := by
      simp only [SharedSender.step, SharedSender.act, hidle, if_true, hback, Option.map_some]
    refine ⟨_, _, .inl rfl, hs, h.step (sends_of_result rfl (by simp) (by simp) (by simp)) hs, hidle,
      ?_⟩
    · simp only [cost, Sender.cost, hframes, List.length_cons]
      omega
  | nil =>
    have hready : (s.LoopIdle && s.sender.frames.isEmpty) = true := by
      simp [hidle, hframes]
    cases hfunctors : s.functors with
    | cons f functors =>
      have hcost {m : Message} (hf : functorCost f = 4 * m.len + 3) :
          SharedSender.cost { s with functors := functors } + (4 * m.len + 3) = s.cost := by
        simp only [cost, hfunctors, List.map_cons, List.sum_cons, hf]
        omega
      have hrun {m : Message} (hf : functorCost f = 4 * m.len + 3)
          (heq : s.step (.runFunctor m.mem (.count m.len)) =
            SharedSender.sendInLoop { s with functors := functors } m m.mem (.count m.len)) :
          ∃ t, s.step (.runFunctor m.mem (.count m.len)) = some t ∧ t.Sending ∧ t.LoopIdle = true ∧
            t.cost < s.cost := by
        obtain ⟨t, ht, hsending, hcalls, hid, hle⟩ := (h.tail hfunctors).can_sendInLoop m
        have hsum := hcost hf
        refine ⟨t, heq.trans ht, hsending, ?_, by omega⟩
        unfold LoopIdle at hidle ⊢
        rw [hcalls, hid]
        exact hidle
      cases f with
      | sendInLoop m =>
        obtain ⟨t, ht⟩ := hrun rfl (by simp [SharedSender.step, runFunctor, hready, hfunctors])
        exact ⟨_, t, .inr (.inl ⟨_, _, rfl⟩), ht⟩
      | sendInLoopAsString m =>
        obtain ⟨t, ht⟩ := hrun rfl (by simp [SharedSender.step, runFunctor, hready, hfunctors])
        exact ⟨_, t, .inr (.inl ⟨_, _, rfl⟩), ht⟩
      | shutdownInLoop =>
        have hnot := h.functors .shutdownInLoop (hfunctors ▸ List.mem_cons_self)
        simp [SendFunctor.isShutdown] at hnot
    | nil =>
      have hbytes : s.sender.conn.outputBuffer.bytes ≠ [] := fun h0 =>
        hleft ⟨hframes, hfunctors, h0⟩
      obtain ⟨u, hu, hlt⟩ := Sender.can_handleWrite h.intact h.watched hbytes
      have hs : s.step (.handleWrite (.count s.sender.conn.outputBuffer.bytes.length)) =
          some { s with sender := u } := by
        simp [SharedSender.step, SharedSender.act, hidle, Sender.step, hframes, hu]
      refine ⟨_, _, .inr (.inr ⟨_, rfl⟩), hs, 
        h.step (sends_of_result rfl (by simp) (by simp) (by simp)) hs, hidle, ?_⟩
      · simp only [cost]
        omega

end SharedSender

namespace TcpPair

variable {p q : TcpPair}

/-! ## Both ends -/

/-- The actions of runs without a shutdown. -/
def Sends (p : TcpPair) : Action → Prop
  | .sender a => p.sender.Sends a
  | .input _ => True

/-- The actions of the two loop threads, but for what their callbacks do. -/
def LoopThreads (threadId : ℕ) : Action → Prop
  | .sender (.sendOn tid _) => tid = threadId
  | .sender (.runFunctor ..) | .sender (.handleWrite _) | .sender .callbackReturns => True
  | .input (.handleRead _) => True
  | _ => False

/-- The invariant. -/
structure Live (p : TcpPair) : Prop where
  sending : p.sender.Sending
  wire : p.input.received ++ p.wire = p.sender.sender.accepted
  notClosed : ¬p.Closed

theorem live_new (threadId : ℕ) (callback : Bool) : (new threadId callback).Live where
  sending := SharedSender.sending_established threadId callback
  wire := rfl
  notClosed := by simp [Closed, new, Input.new]

/-- **One action.** -/
theorem Live.step (h : p.Live) {a : Action} (ha : p.Sends a) (hs : p.step a = some q) : q.Live := by
  cases a with
  | sender a =>
    obtain ⟨t, ht, rfl⟩ := Option.map_eq_some_iff.mp hs
    have hpre := SharedSender.accepted_of_step h.sending.intact.spent ht
    exact ⟨h.sending.step ha ht, wire_sender h.wire hpre, h.notClosed⟩
  | input a =>
    obtain ⟨wire, hwire, hs⟩ := Option.bind_eq_some_iff.mp hs
    obtain ⟨i, hi, rfl⟩ := Option.map_eq_some_iff.mp hs
    obtain ⟨hbytes, -, hclose⟩ := input_spec hwire hi
    refine ⟨h.sending, hbytes.trans h.wire, fun hclosed => ?_⟩
    -- the write side is open
    rcases hclose hclosed with hold | ⟨hpos, -⟩
    · exact h.notClosed hold
    · have hzero := h.sending.shutdownWrites
      omega

/-- **A read event can take bytes** while the kernels have some. -/
theorem Live.can_read (h : p.Live) (hwire : p.wire ≠ []) :
    ∃ data q, p.step (.input (.handleRead (.ok data))) = some q ∧ q.sender = p.sender ∧
      q.wire.length < p.wire.length := by
  have hoffered : 0 < p.input.inputBuffer.1.offered := by
    unfold Buffer.offered Buffer.extraSize
    split_ifs <;> omega
  have hpos : 0 < p.wire.length := List.length_pos_iff.mpr hwire
  let data := p.wire.take p.input.inputBuffer.1.offered
  have hlength : data.length = min p.input.inputBuffer.1.offered p.wire.length := List.length_take
  have hdata : data ≠ [] := List.length_pos_iff.mp (by omega)
  have hdeliver : p.deliver (.handleRead (.ok data)) = some (p.wire.drop data.length) := by
    simp only [deliver, if_neg h.notClosed, if_neg hdata]
    rw [if_pos (List.take_prefix _ _)]
  have hread : p.input.step (.handleRead (.ok data)) = some (p.input.handleRead (.ok data)) := by
    unfold Input.step
    exact if_pos (by simp only [Input.delivered]; omega)
  refine ⟨data, ⟨p.sender, p.wire.drop data.length, p.input.handleRead (.ok data)⟩, ?_, rfl, ?_⟩
  · simp only [TcpPair.step, hdeliver, hread, Option.bind_some, Option.map_some]
  · rw [List.length_drop]
    omega

/-- What no action changes or takes back at the end that sends. -/
theorem sender_of_step {a : Action} (hs : p.step a = some q) :
    q.sender.threadId = p.sender.threadId ∧
      (p.sender.sender.Spent → q.sender.sender.Spent) ∧
      (p.sender.sender.Spent → p.sender.sender.sent <+: q.sender.sender.sent) := by
  cases a with
  | sender a =>
    obtain ⟨t, ht, rfl⟩ := Option.map_eq_some_iff.mp hs
    obtain ⟨hmoves, -, hid⟩ := SharedSender.moves ht
    refine ⟨hid, fun hspent => ?_, fun hspent => ?_⟩
    · cases hmoves with
      | step b hb => exact hspent.step hb
      | state st hu =>
        simp only [hu]
        exact hspent
    · cases hmoves with
      | step b hb => exact Sender.sent_of_step hspent hb
      | state st hu => simp [hu]
  | input a =>
    obtain ⟨wire, -, hs⟩ := Option.bind_eq_some_iff.mp hs
    obtain ⟨i, -, rfl⟩ := Option.map_eq_some_iff.mp hs
    exact ⟨rfl, id, fun _ => List.prefix_rfl⟩

/-- All that was sent has been received. -/
def Received (p : TcpPair) : Prop :=
  p.sender.functors = [] ∧ p.sender.sender.conn.outputBuffer.bytes = [] ∧ p.wire = [] ∧
    p.input.received = p.sender.sender.sent

/-- What is still to do. -/
def cost (p : TcpPair) : ℕ := p.sender.cost - p.input.received.length

/-- While the loop thread is in no call, one of the two threads can go on. -/
theorem Live.can_step (h : p.Live) (hidle : p.sender.LoopIdle = true) (hnot : ¬p.Received)
    (threadId : ℕ) : ∃ a q, LoopThreads threadId a ∧ p.step a = some q ∧
      (q.Live ∧ q.sender.LoopIdle = true) ∧ q.cost < p.cost := by
  have hlength := congrArg List.length h.wire
  rw [List.length_append] at hlength
  have hle := p.sender.length_accepted_le_cost
  by_cases hleft : p.sender.sender.frames = [] ∧ p.sender.functors = [] ∧
      p.sender.sender.conn.outputBuffer.bytes = []
  · -- nothing is left at the end that sends
    obtain ⟨-, hfunctors, hbytes⟩ := hleft
    have hwire : p.wire ≠ [] := by
      intro hnil
      refine hnot ⟨hfunctors, hbytes, hnil, ?_⟩
      have hstream := h.sending.intact.stream
      rw [hbytes, List.append_nil] at hstream
      rw [← hstream, ← h.wire, hnil, List.append_nil]
    obtain ⟨data, q, hq, hsender, hlt⟩ := h.can_read hwire
    have hlive : q.Live := h.step (a := .input (.handleRead (.ok data))) trivial hq
    have hlength' := congrArg List.length hlive.wire
    rw [List.length_append, hsender] at hlength'
    refine ⟨.input (.handleRead (.ok data)), q, trivial, hq, ⟨hlive, hsender ▸ hidle⟩, ?_⟩
    unfold cost
    rw [hsender]
    omega
  · obtain ⟨a, t, ha, ht, hsending, hidle', hlt⟩ := h.sending.can_step hidle hleft
    have hpre := SharedSender.accepted_of_step h.sending.intact.spent ht
    refine ⟨.sender a, ⟨t, p.wire ++ t.sender.accepted.drop p.sender.sender.accepted.length, p.input⟩,
      ?_, by rw [TcpPair.step, ht, Option.map_some],
      ⟨⟨hsending, wire_sender h.wire hpre, h.notClosed⟩, hidle'⟩, ?_⟩
    · rcases ha with rfl | ⟨mem, r, rfl⟩ | ⟨r, rfl⟩ <;> trivial
    · have hlength' := hpre.length_le
      have hle' := t.length_accepted_le_cost
      simp only [cost]
      omega

/-- **What was sent can be received.** In every run of sends by any threads, write events, read
events and `retrieve`s, without a shutdown, a file, a failed `write` of `sendInLoop` and a
`send(Buffer*)` by another thread: from every state the two loop threads can come, on their own, to a
state in which no functor is queued, nothing is buffered or in the kernels, and what was received is
all that was sent. -/
theorem can_receive {threadId : ℕ} {callback : Bool} {as : List Action}
    (hg : Runs.Guarded step Sends (new threadId callback) as)
    (h : Runs.exec step (new threadId callback) as = some p) :
    Runs.Can step (LoopThreads threadId)
      (fun q => q.Received ∧ p.sender.sender.sent <+: q.sender.sender.sent) p := by
  have hlive : p.Live := Runs.exec_invariant (live_new threadId callback)
    (fun _ _ _ ht ha hs => ht.step ha hs) hg h
  have hid : p.sender.threadId = threadId := Runs.exec_induction
    (I := fun q => q.sender.threadId = threadId) rfl
    (fun _ _ _ ht hs => (sender_of_step hs).1.trans ht) h
  have hgo {q : TcpPair} (hq : q.Live ∧ q.sender.LoopIdle = true) :
      Runs.Can step (LoopThreads threadId) Received q :=
    Runs.can_of_measure (I := fun q => q.Live ∧ q.sender.LoopIdle = true) cost
      (fun q hq hnot => hq.1.can_step hq.2 hnot threadId) hq
  have hcan : Runs.Can step (LoopThreads threadId) Received p := by
    by_cases hidle : p.sender.LoopIdle = true
    · exact hgo ⟨hlive, hidle⟩
    · -- the loop thread comes out of the call it is in
      obtain ⟨r, t, ht, hsending, hidle'⟩ :=
        hlive.sending.can_sendOn (Bool.eq_false_iff.mpr hidle)
      have hpre := SharedSender.accepted_of_step hlive.sending.intact.spent ht
      have hs : p.step (.sender (.sendOn p.sender.threadId r)) = some
          ⟨t, p.wire ++ t.sender.accepted.drop p.sender.sender.accepted.length, p.input⟩ := by
        rw [TcpPair.step, ht, Option.map_some]
      exact .cons (a := .sender (.sendOn _ r)) hid hs
        (hgo ⟨⟨hsending, wire_sender hlive.wire hpre, hlive.notClosed⟩, hidle'⟩)
  have hkeep := hcan.keep (I := fun q => q.sender.sender.Spent ∧
      p.sender.sender.sent <+: q.sender.sender.sent) ⟨hlive.sending.intact.spent, List.prefix_rfl⟩
    fun t a t' ht hs => ?_
  · exact hkeep.mono fun q hq => ⟨hq.2, hq.1.2⟩
  · obtain ⟨-, hspent, hsent⟩ := sender_of_step hs
    exact ⟨hspent ht.1, ht.2.trans (hsent ht.1)⟩

/-- A message is queued by another thread while the loop thread sends one, of which a part is
written. -/
def twoSenders : List Action :=
  [.sender (.send 1 .string Sender.abcde), .sender (.sendOn 1 (.count 0)),
    .sender (.send 0 .bytes Sender.abcde), .sender (.sendOn 0 (.count 2)),
    .input (.handleRead (.ok [97]))]

theorem can_receive_twoSenders : ∃ p, Runs.exec step (new 0 true) twoSenders = some p ∧
    p.input.received = [97] ∧ Runs.Can step (LoopThreads 0)
      (fun q => q.Received ∧ p.sender.sender.sent <+: q.sender.sender.sent) p := by
  have hrun : (Runs.exec step (new 0 true) twoSenders).map (fun p => p.input.received) =
      some [97] := by decide +kernel
  obtain ⟨p, hp, hreceived⟩ := Option.map_eq_some_iff.mp hrun
  refine ⟨p, hp, hreceived, can_receive (fun done a hd t _ => ?_) hp⟩
  have ha := hd.subset (List.mem_append_right _ List.mem_cons_self)
  simp only [twoSenders, List.mem_cons, List.not_mem_nil, or_false] at ha
  rcases ha with rfl | rfl | rfl | rfl | rfl <;>
    simp [Sends, SharedSender.Sends, SharedSender.Counts, SharedSender.Action.result]

end TcpPair

end Net

end Muduo
