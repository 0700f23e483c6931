import Muduo.Net.TcpInput
import Muduo.Net.TcpShutdownSend

/-! # The two ends of a connection

A `TcpPair` is a connection whose threads send and shut it down (`SharedSender`), what the kernels
have accepted of it and not delivered, and the connection at the other end, which reads (`Input`).
Both ends are those of `muduo/net/TcpConnection.cc`. The kernels deliver what they have accepted in
order, in pieces of any size, and the end of the stream behind it once the write side has been shut
down.

* **`TcpPair.close_after_all`**: the reader closes only when it has received every message that
  passed the check of `send`, whole and in order;
* **`TcpPair.stream_carried`**: what was taken out, what the reader has buffered, what the kernels
  have and what the sender has buffered are the messages sent, one after another. -/

namespace Muduo

namespace Net

namespace Sender

variable {s t : Sender}

/-! ## What the kernel has accepted -/

/-- It only grows, at its end. -/
theorem accepted_of_step {a : Action} (hspent : s.Spent) (h : s.step a = some t) :
    s.accepted <+: t.accepted := by
  cases a with
  | send m r => cases sends h <;> simp
  | sendFile file r => cases sendsFile h <;> simp [keep, enableWriting]
  | setWriteCompleteCallback on =>
    cases h
    exact List.prefix_rfl
  | handleWrite r =>
    rw [Sender.step] at h
    split_ifs at h
    cases writes h <;> simp
  | callbackReturns =>
    obtain ⟨f, -, ht⟩ := hspent.callbackReturns h
    rw [ht]

/-- After a shutdown with nothing pending it does not grow. -/
theorem accepted_eq_of_step {a : Action} (hspent : s.Spent) (hwatched : s.Watched)
    (hstate : s.conn.state ≠ .kConnected) (hp : ¬ s.Pending) (h : s.step a = some t) :
    t.accepted = s.accepted := by
  cases a with
  | send m r =>
    rw [step, send, if_neg hstate] at h
    cases h
    rfl
  | sendFile file r =>
    rw [step, sendFile, if_neg hstate] at h
    cases h
    rfl
  | setWriteCompleteCallback on =>
    cases h
    rfl
  | handleWrite r =>
    have hoff : ¬ s.conn.writing = true := fun hw => hp (hwatched.mpr hw)
    rw [step, handleWrite, if_neg hoff] at h
    split_ifs at h
  | callbackReturns =>
    obtain ⟨f, -, ht⟩ := hspent.callbackReturns h
    rw [ht]

end Sender

namespace SharedSender

variable {s t : SharedSender}

/-- The answer of `write` that comes with an action. -/
def Action.result : Action → Option Written
  | .sendOn _ r | .runFunctor _ r => some r
  | _ => none

/-- What an action does to the connection: one of the actions in the loop thread, or `state_` is
set. -/
inductive Moves (a : Action) (s u : Sender) : Prop
  | step (b : Sender.Action) (hb : s.step b = some u)
      (hsend : ∀ m r, b = .send m r → a.result = some r)
      (hfile : ∀ file r, b = .sendFile file r → a = .sendFile file r)
  | state (st : State) (hu : u = { s with conn := { s.conn with state := st } })

theorem moves_self (a : Action) (u : Sender) : Moves a u u := .state u.conn.state rfl

theorem moves_sendInLoop {a : Action} {m : Message} {mem : Memory} {r : Written}
    (ha : a.result = some r) (h : s.sendInLoop m mem r = some t) :
    Moves a s.sender t.sender ∧ s.shutdownWrites ≤ t.shutdownWrites ∧
      t.threadId = s.threadId := by
  unfold SharedSender.sendInLoop at h
  split_ifs at h
  · obtain ⟨u, hu, rfl⟩ := Option.map_eq_some_iff.mp h
    refine ⟨.step (.send { m with mem := mem } r) hu ?_ ?_, le_rfl, rfl⟩
    · rintro m' r' ⟨⟩
      exact ha
    · intro file r' hb
      simp at hb
  · cases h
    exact ⟨moves_self a _, le_rfl, rfl⟩

theorem moves_act {a : Action} {b : Sender.Action} (h : s.act b = some t)
    (hsend : ∀ m r, b = .send m r → a.result = some r)
    (hfile : ∀ file r, b = .sendFile file r → a = .sendFile file r) :
    Moves a s.sender t.sender ∧ s.shutdownWrites ≤ t.shutdownWrites ∧
      t.threadId = s.threadId := by
  unfold SharedSender.act at h
  split_ifs at h
  obtain ⟨u, hu, rfl⟩ := Option.map_eq_some_iff.mp h
  exact ⟨.step b hu hsend hfile, le_rfl, rfl⟩

theorem moves_shutdownInLoop (s : SharedSender) (a : Action) :
    Moves a s.sender s.shutdownInLoop.sender ∧
      s.shutdownWrites ≤ s.shutdownInLoop.shutdownWrites ∧
        s.shutdownInLoop.threadId = s.threadId := by
  unfold SharedSender.shutdownInLoop
  split_ifs
  · exact ⟨moves_self a _, Nat.le_succ _, rfl⟩
  · exact ⟨moves_self a _, le_rfl, rfl⟩

/-- **What an action does** to the connection. It takes no shutdown back, and the loop keeps its
thread. -/
theorem moves {a : Action} (h : s.step a = some t) :
    Moves a s.sender t.sender ∧ s.shutdownWrites ≤ t.shutdownWrites ∧
      t.threadId = s.threadId := by
  cases a with
  | send tid overload m =>
    simp only [step, send] at h
    split at h
    · split_ifs at h <;> cases h <;> exact ⟨moves_self _ _, le_rfl, rfl⟩
    · cases h
  | sendOn tid r =>
    simp only [step, sendOn] at h
    split at h
    · split_ifs at h
      · exact moves_sendInLoop (s := s.goTo tid .idle) rfl h
      · cases h
        exact ⟨moves_self _ _, le_rfl, rfl⟩
    · cases h
  | shutdown tid =>
    simp only [step, shutdown] at h
    split at h
    · split_ifs at h <;> cases h <;> exact ⟨moves_self _ _, le_rfl, rfl⟩
    · cases h
  | disconnect tid =>
    simp only [step, disconnect] at h
    split at h
    · cases h
      exact ⟨.state .kDisConnecting rfl, le_rfl, rfl⟩
    · cases h
  | shutdownOn tid =>
    simp only [step, shutdownOn] at h
    split at h
    · split_ifs at h <;> cases h
      · exact moves_shutdownInLoop (s.goTo tid .idle) _
      · exact ⟨moves_self _ _, le_rfl, rfl⟩
    · cases h
  | runFunctor mem r =>
    simp only [step, runFunctor] at h
    split_ifs at h
    split at h
    · cases h
    · next m functors _ =>
      exact moves_sendInLoop (s := { s with functors := functors }) rfl h
    · next m functors _ =>
      exact moves_sendInLoop (s := { s with functors := functors }) rfl h
    · next functors _ =>
      cases h
      exact moves_shutdownInLoop { s with functors := functors } _
  | handleWrite r => exact moves_act h (by simp) (by simp)
  | sendFile file r => exact moves_act h (by simp) (by simp)
  | setWriteCompleteCallback on => exact moves_act h (by simp) (by simp)
  | callbackReturns => exact moves_act h (by simp) (by simp)

/-- What the kernel has accepted only grows. -/
theorem accepted_of_step {a : Action} (hspent : s.sender.Spent) (h : s.step a = some t) :
    s.sender.accepted <+: t.sender.accepted := by
  cases (moves h).1 with
  | step b hb => exact Sender.accepted_of_step hspent hb
  | state st hu => simp [hu]

/-- Once the write side has been shut down, it does not, and the write side stays so. -/
theorem Delivering.accepted_eq (hs : s.Delivering) {a : Action} (hw : 0 < s.shutdownWrites)
    (h : s.step a = some t) :
    t.sender.accepted = s.sender.accepted ∧ 0 < t.shutdownWrites := by
  obtain ⟨hp, hstate⟩ := hs.closed hw
  refine ⟨?_, hw.trans_le (moves h).2.1⟩
  cases (moves h).1 with
  | step b hb => exact Sender.accepted_eq_of_step hs.spent hs.watched hstate hp hb
  | state st hu => simp [hu]

/-- The actions that keep the byte stream: no `write` that `sendInLoop` makes itself fails, and no
file is sent. -/
def Counts (s : SharedSender) : Action → Prop
  | .sendFile .. => False
  | a => s.sender.DirectWrite → ∀ r ∈ a.result, ∃ n, r = .count n

/-- They keep it, from whichever thread they come. -/
theorem intact_of_step {a : Action} (hs : s.sender.Intact) (ha : s.Counts a)
    (h : s.step a = some t) : t.sender.Intact := by
  cases (moves h).1 with
  | state st hu =>
    rw [hu]
    exact ⟨hs.stream, hs.settled, hs.noFile⟩
  | step b hb hsend hfile =>
    refine hs.step ?_ hb
    cases b with
    | send m r =>
      intro hdirect
      have hr : r ∈ a.result := hsend m r rfl
      cases a with
      | sendFile => exact absurd ha id
      | _ => exact ha hdirect r hr
    | sendFile file r =>
      rw [hfile file r rfl] at ha
      exact absurd ha id
    | setWriteCompleteCallback on => trivial
    | handleWrite r => trivial
    | callbackReturns => trivial

end SharedSender

/-- A connection that sends, the kernels, and the connection that reads. -/
structure TcpPair where
  /-- The end that sends. -/
  sender : SharedSender
  /-- What the kernels have accepted and not delivered. -/
  wire : Bytes
  /-- The end that reads. -/
  input : Input

namespace TcpPair

/-- A new connection, whose loop thread at the end that sends is `threadId`. -/
def new (threadId : ℕ) (callback : Bool) : TcpPair :=
  ⟨.established threadId callback, [], .new⟩

/-- What can happen at one of the ends. -/
inductive Action
  | sender (a : SharedSender.Action)
  | input (a : Input.Action)

/-- The action of the end that sends. -/
def Action.sender? : Action → Option SharedSender.Action
  | .sender a => some a
  | .input _ => none

/-- The reader has closed the connection. -/
def Closed (p : TcpPair) : Prop := .handleClose ∈ p.input.callbacks

instance (p : TcpPair) : Decidable p.Closed := inferInstanceAs (Decidable (_ ∈ _))

/-- What the kernels have after an action of the reader. `readv` delivers a part of what they have,
in order, and nothing at the end of the stream; after `handleClose` the channel is disabled. -/
def deliver (p : TcpPair) : Input.Action → Option Bytes
  | .handleRead (.ok data) =>
    if p.Closed then none
    else if data = [] then
      if 0 < p.sender.shutdownWrites ∧ p.wire = [] then some [] else none
    else if data <+: p.wire then some (p.wire.drop data.length) else none
  | .handleRead (.error _) => if p.Closed then none else some p.wire
  | _ => some p.wire

/-- One action. -/
def step (p : TcpPair) : Action → Option TcpPair
  | .sender a => (p.sender.step a).map fun s =>
    ⟨s, p.wire ++ s.sender.accepted.drop p.sender.sender.accepted.length, p.input⟩
  | .input a => (p.deliver a).bind fun wire => (p.input.step a).map fun i => ⟨p.sender, wire, i⟩

/-! ## The reader -/

variable {p q : TcpPair}

/-- What an action of the reader does. -/
theorem input_spec {a : Input.Action} {wire : Bytes} {i : Input} (hwire : p.deliver a = some wire)
    (hi : p.input.step a = some i) : i.received ++ wire = p.input.received ++ p.wire ∧
      (p.wire = [] → wire = []) ∧
      (.handleClose ∈ i.callbacks → p.Closed ∨ 0 < p.sender.shutdownWrites ∧ wire = []) := by
  cases a with
  | handleRead r =>
    obtain ⟨-, hi⟩ := Option.ite_none_right_eq_some.mp hi
    cases hi
    cases r with
    | error errno =>
      obtain ⟨hopen, hwire⟩ := Option.ite_none_left_eq_some.mp hwire
      cases hwire
      have hnot : .handleClose ∉ p.input.callbacks := hopen
      simp [Input.handleRead_error, hnot]
    | ok data =>
      obtain ⟨hopen, hwire⟩ := Option.ite_none_left_eq_some.mp hwire
      by_cases hdata : data = []
      · subst hdata
        rw [if_pos rfl] at hwire
        obtain ⟨⟨hw, hnil⟩, hwire⟩ := Option.ite_none_right_eq_some.mp hwire
        cases hwire
        simp [Input.handleRead_nil, hnil, hw]
      · rw [if_neg hdata] at hwire
        obtain ⟨⟨rest, hrest⟩, hwire⟩ := Option.ite_none_right_eq_some.mp hwire
        cases hwire
        have hnot : .handleClose ∉ p.input.callbacks := hopen
        rw [← hrest, List.drop_left]
        simp [Input.handleRead_ok hdata, hnot, hdata]
  | retrieve len =>
    cases hwire
    cases hi
    exact ⟨rfl, id, .inl⟩
  | retrieveAll =>
    cases hwire
    cases hi
    exact ⟨rfl, id, .inl⟩
  | retrieveAsString len =>
    obtain ⟨-, hi⟩ := Option.ite_none_right_eq_some.mp hi
    cases hwire
    cases hi
    exact ⟨rfl, id, .inl⟩

/-! ## The end of the stream -/

/-- The actions that deliver: at the end that sends, those that `SharedSender.SendsDone` allows. -/
def SendsDone (p : TcpPair) : Action → Prop
  | .sender a => p.sender.SendsDone a
  | .input _ => True

/-- The invariant. -/
structure Delivering (p : TcpPair) : Prop where
  delivering : p.sender.Delivering
  account : p.input.Account
  /-- What was received and what the kernels have is what they have accepted. -/
  wire : p.input.received ++ p.wire = p.sender.sender.accepted
  /-- The reader has closed at the end of the stream. -/
  closed : p.Closed → 0 < p.sender.shutdownWrites ∧ p.wire = []

theorem delivering_new (threadId : ℕ) (callback : Bool) : (new threadId callback).Delivering where
  delivering := SharedSender.delivering_established threadId callback
  account := Input.account_new
  wire := rfl
  closed := by simp [Closed, new, Input.new]

/-- What is newly accepted goes to the kernels. -/
theorem wire_sender {s t : Sender} {received wire : Bytes} (hwire : received ++ wire = s.accepted)
    (h : s.accepted <+: t.accepted) :
    received ++ (wire ++ t.accepted.drop s.accepted.length) = t.accepted := by
  obtain ⟨rest, hrest⟩ := h
  rw [← List.append_assoc, hwire, ← hrest, List.drop_left]

/-- **One action.** -/
theorem Delivering.step (h : p.Delivering) {a : Action} (ha : p.SendsDone a)
    (hs : p.step a = some q) : q.Delivering := by
  cases a with
  | sender a =>
    obtain ⟨t, ht, rfl⟩ := Option.map_eq_some_iff.mp hs
    have hpre := SharedSender.accepted_of_step h.delivering.spent ht
    refine ⟨h.delivering.step ha ht, h.account, wire_sender h.wire hpre, fun hclosed => ?_⟩
    -- nothing is accepted any more
    obtain ⟨hw, hnil⟩ := h.closed hclosed
    obtain ⟨heq, hw'⟩ := h.delivering.accepted_eq hw ht
    refine ⟨hw', ?_⟩
    simp [hnil, heq]
  | input a =>
    obtain ⟨wire, hwire, hs⟩ := Option.bind_eq_some_iff.mp hs
    obtain ⟨i, hi, rfl⟩ := Option.map_eq_some_iff.mp hs
    obtain ⟨hbytes, hnil, hclose⟩ := input_spec hwire hi
    refine ⟨h.delivering, h.account.step hi, hbytes.trans h.wire, fun hclosed => ?_⟩
    rcases hclose hclosed with hold | hnow
    · exact (h.closed hold).imp_right hnil
    · exact hnow

/-- **The reader closes after everything.** In every run of sends and shutdowns by any threads, write
events, and read events and `retrieve`s at the other end, in which `send(Buffer*)` is called by the
loop thread only, `state_` is set to `kDisConnecting` when no message is on its way, a functor finds
the memory that it points to as it was, and no write event finishes a file in front of buffered
bytes: the bytes that were taken out, those in `inputBuffer_` and those in the kernels are
what was accepted, no message is discarded, and when the reader has run `handleClose` then all of
them have been sent and received, each whole and at its place. -/
theorem close_after_all {threadId : ℕ} {callback : Bool} {as : List Action}
    (hg : Runs.Guarded step SendsDone (new threadId callback) as)
    (h : Runs.exec step (new threadId callback) as = some p) :
    p.input.retrieved ++ p.input.inputBuffer.bytes ++ p.wire = p.sender.sender.accepted ∧
      p.sender.dropped = [] ∧
      (p.Closed → ¬ p.sender.OnTheWay ∧
        ∀ m ∈ p.sender.carried, m.2 <+: p.input.received.drop m.1) := by
  have hp : p.Delivering := Runs.exec_invariant (delivering_new threadId callback)
    (fun _ _ _ ht ha hs => ht.step ha hs) hg h
  have haccount : p.input.retrieved ++ p.input.inputBuffer.bytes = p.input.received := hp.account
  refine ⟨by rw [haccount, hp.wire], hp.delivering.dropped, fun hclosed => ?_⟩
  obtain ⟨hw, hnil⟩ := hp.closed hclosed
  have hdelivered := hp.delivering.delivered
  have hall : p.input.received = p.sender.sender.accepted := by
    rw [← hp.wire, hnil, List.append_nil]
  rw [hall]
  exact ⟨hdelivered.arrived hw, hdelivered.accepted hw⟩

/-! ## The bytes -/

/-- The actions that carry the byte stream to its end. -/
def Carries (p : TcpPair) : Action → Prop
  | .sender a => p.sender.SendsDone a ∧ p.sender.Counts a
  | .input _ => True

/-- **The reader gets what was sent.** In every such run in which, besides, no file is sent and no
`write` that `sendInLoop` makes itself fails: the bytes that were taken out, those in `inputBuffer_`,
those in the kernels and those in `outputBuffer_` are the messages that came to `sendInLoop`, one
after another, and they have all been received when the reader has run `handleClose`. -/
theorem stream_carried {threadId : ℕ} {callback : Bool} {as : List Action}
    (hg : Runs.Guarded step Carries (new threadId callback) as)
    (h : Runs.exec step (new threadId callback) as = some p) :
    p.input.retrieved ++ p.input.inputBuffer.bytes ++ p.wire ++
        p.sender.sender.conn.outputBuffer.bytes = p.sender.sender.sent ∧
      (p.Closed → p.input.received = p.sender.sender.sent) := by
  obtain ⟨hp, hintact⟩ : p.Delivering ∧ p.sender.sender.Intact := by
    refine Runs.exec_invariant (I := fun p => p.Delivering ∧ p.sender.sender.Intact)
      ⟨delivering_new threadId callback, ?_⟩ (fun t a t' ht ha hs => ?_) hg h
    · exact Sender.intact_established callback
    · cases a with
      | sender a =>
        refine ⟨ht.1.step (a := .sender a) ha.1 hs, ?_⟩
        obtain ⟨u, hu, rfl⟩ := Option.map_eq_some_iff.mp hs
        exact SharedSender.intact_of_step ht.2 ha.2 hu
      | input a =>
        refine ⟨ht.1.step (a := .input a) trivial hs, ?_⟩
        obtain ⟨wire, -, hs⟩ := Option.bind_eq_some_iff.mp hs
        obtain ⟨i, -, rfl⟩ := Option.map_eq_some_iff.mp hs
        exact ht.2
  have haccount : p.input.retrieved ++ p.input.inputBuffer.bytes = p.input.received := hp.account
  have hstream := hintact.stream
  refine ⟨by rw [haccount, hp.wire, hstream], fun hclosed => ?_⟩
  obtain ⟨hw, hnil⟩ := hp.closed hclosed
  have hempty : p.sender.sender.conn.outputBuffer.bytes = [] :=
    not_ne_iff.mp fun hne => (hp.delivering.closed hw).1 (.inl hne)
  rw [← hstream, hempty, List.append_nil, ← hp.wire, hnil, List.append_nil]

/-! ## A conversation -/

/-- The actions of the end that sends are a run of it. -/
theorem exec_sender {as : List Action} (h : Runs.exec step p as = some q) :
    Runs.exec SharedSender.step p.sender (as.filterMap Action.sender?) = some q.sender := by
  induction as generalizing p with
  | nil =>
    cases h
    rfl
  | cons a as ih =>
    rw [Runs.exec_cons] at h
    obtain ⟨t, ht, h⟩ := Option.bind_eq_some_iff.mp h
    cases a with
    | sender a =>
      obtain ⟨u, hu, rfl⟩ := Option.map_eq_some_iff.mp ht
      simp only [List.filterMap_cons, Action.sender?, Runs.exec_cons, hu, Option.bind_some]
      exact ih h
    | input a =>
      obtain ⟨wire, -, ht⟩ := Option.bind_eq_some_iff.mp ht
      obtain ⟨i, -, rfl⟩ := Option.map_eq_some_iff.mp ht
      simp only [List.filterMap_cons, Action.sender?]
      exact ih (p := ⟨p.sender, wire, i⟩) h

/-- What the end that sends does, does not depend on the other end. -/
theorem guarded_of_sender {threadId : ℕ} {callback : Bool} {as : List Action}
    (h : Runs.Guarded SharedSender.step SharedSender.SendsDone
      (.established threadId callback) (as.filterMap Action.sender?)) :
    Runs.Guarded step SendsDone (new threadId callback) as := by
  intro done a hd t ht
  cases a with
  | input a => trivial
  | sender a =>
    refine h (done.filterMap Action.sender?) a ?_ t.sender (exec_sender ht)
    have hpre := hd.filterMap Action.sender?
    rw [List.filterMap_append] at hpre
    exact hpre

/-- Another thread sends a message, which its functor writes. -/
def sendAbcde : List Action :=
  [.sender (.send 1 .string Sender.abcde), .sender (.sendOn 1 (.count 0)),
    .sender (.runFunctor Sender.abcde.mem (.count 5)), .sender (.shutdown 1)]

/-- It shuts the connection down, and the reader takes the message in two parts. -/
def readAbcde : List Action :=
  [.sender (.shutdownOn 1), .sender (.runFunctor Sender.abcde.mem (.count 0)),
    .input (.handleRead (.ok (ascii "abc"))), .input (.retrieve 1),
    .input (.handleRead (.ok (ascii "de"))), .input (.handleRead (.ok []))]

theorem guarded_abcde :
    Runs.Guarded step Carries (new 0 false)
      (sendAbcde ++ [.sender (.disconnect 1)] ++ readAbcde) := by
  intro done a hd t ht
  have hdone := guarded_of_sender SharedSender.guarded_arrived done a hd t ht
  cases a with
  | input a => trivial
  | sender a =>
    refine ⟨hdone, ?_⟩
    have ha := hd.subset (List.mem_append_right _ List.mem_cons_self)
    simp only [sendAbcde, readAbcde, List.mem_append, List.mem_cons, List.not_mem_nil, or_false,
      Action.sender.injEq, reduceCtorEq] at ha
    rcases ha with ((rfl | rfl | rfl | rfl) | rfl) | rfl | rfl <;>
      simp [SharedSender.Counts, SharedSender.Action.result]

theorem exec_abcde : ∃ p, Runs.exec step (new 0 false)
    (sendAbcde ++ [.sender (.disconnect 1)] ++ readAbcde) = some p ∧ p.Closed := by
  have hrun : (Runs.exec step (new 0 false)
      (sendAbcde ++ [.sender (.disconnect 1)] ++ readAbcde)).map (fun p => decide p.Closed) =
      some true := by decide +kernel
  obtain ⟨p, hp, hclosed⟩ := Option.map_eq_some_iff.mp hrun
  exact ⟨p, hp, of_decide_eq_true hclosed⟩

/-- What is said of it at the end. -/
theorem close_after_all_abcde : ∃ p, Runs.exec step (new 0 false)
      (sendAbcde ++ [.sender (.disconnect 1)] ++ readAbcde) = some p ∧
    ¬ p.sender.OnTheWay ∧ ∀ m ∈ p.sender.carried, m.2 <+: p.input.received.drop m.1 := by
  obtain ⟨p, hp, hclosed⟩ := exec_abcde
  have hg : Runs.Guarded step SendsDone (new 0 false)
      (sendAbcde ++ [.sender (.disconnect 1)] ++ readAbcde) := by
    intro done a hd t ht
    have ha := guarded_abcde done a hd t ht
    cases a with
    | sender a => exact ha.1
    | input a => trivial
  exact ⟨p, hp, (close_after_all hg hp).2.2 hclosed⟩

theorem stream_carried_abcde : ∃ p, Runs.exec step (new 0 false)
      (sendAbcde ++ [.sender (.disconnect 1)] ++ readAbcde) = some p ∧
    p.input.retrieved ++ p.input.inputBuffer.bytes ++ p.wire ++
        p.sender.sender.conn.outputBuffer.bytes = p.sender.sender.sent ∧
      p.input.received = p.sender.sender.sent := by
  obtain ⟨p, hp, hclosed⟩ := exec_abcde
  have hboth := stream_carried guarded_abcde hp
  exact ⟨p, hp, hboth.1, hboth.2 hclosed⟩

end TcpPair

end Net

end Muduo
