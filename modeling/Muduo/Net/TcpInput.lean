import Muduo.Foundations.Runs
import Muduo.Net.Buffer

/-! # `TcpConnection`: receiving

The input side of `muduo/net/TcpConnection.cc`: read events, each with what `readv` answers in
`Buffer::readFd`, and what the user takes out of `inputBuffer_`. `readFd` returns a `ssize_t`, which
`handleRead` stores in a `size_t`: the `-1` of a failed `readv` becomes a large count, and the
message callback runs.

`Input.Account` is what holds in any case: what was retrieved and what is in the buffer is what was
received. **`Input.matches_iff`** says that the callbacks match what was read exactly in the runs
without a failed `readv`. -/

namespace Muduo

namespace Net

/-- A callback of `handleRead`. -/
inductive InputCallback
  /-- `messageCallback_`, and the bytes in `inputBuffer_` when it is called. -/
  | messageCallback (shown : Bytes)
  | handleClose
  | handleError
deriving DecidableEq, Repr

/-- The input side of a connection. -/
structure Input where
  /-- `inputBuffer_`. -/
  inputBuffer : ByteBuffer
  /-- The callbacks that have run, in order. -/
  callbacks : List InputCallback
  /-- What `readv` has delivered, in order. -/
  received : Bytes
  /-- What was retrieved from `inputBuffer_`, in order. -/
  retrieved : Bytes

namespace Input

/-- A new connection. -/
def new : Input := ⟨.new, [], [], []⟩

/-- `Buffer::readFd`: the result of `readv`, which delivers some bytes or fails with an `errno`. -/
def readFd (b : ByteBuffer) : Except ℕ Bytes → ℤ × ByteBuffer
  | .ok data => (data.length, b.readFd data)
  | .error _ => (-1, b)

/-- What `readv` delivers. -/
def delivered : Except ℕ Bytes → Bytes
  | .ok data => data
  | .error _ => []

/-- `handleRead`, where `readv` answers `r`. -/
def handleRead (s : Input) (r : Except ℕ Bytes) : Input :=
  let (result, b) := readFd s.inputBuffer r
  let s := { s with inputBuffer := b, received := s.received ++ delivered r }
  -- `n` is a `size_t`
  let n := sizeT result
  if n > 0 then { s with callbacks := s.callbacks ++ [.messageCallback b.bytes] }
  else if n = 0 then { s with callbacks := s.callbacks ++ [.handleClose] }
  else { s with callbacks := s.callbacks ++ [.handleError] }

/-- What can happen. -/
inductive Action
  /-- A read event; `readv` delivers some bytes, none at the end of the stream, or fails with an
  `errno`. -/
  | handleRead (r : Except ℕ Bytes)
  /-- The user calls `retrieve(len)` on `inputBuffer_`. -/
  | retrieve (len : ℕ)
  | retrieveAll
  | retrieveAsString (len : ℕ)
deriving DecidableEq

/-- One action. `readv` delivers no more than it is offered, and `retrieveAsString` asserts that
there are enough bytes. -/
def step (s : Input) : Action → Option Input
  | .handleRead r =>
    if (delivered r).length ≤ s.inputBuffer.1.offered then some (s.handleRead r) else none
  | .retrieve len => some { s with
      inputBuffer := s.inputBuffer.retrieve len
      retrieved := s.retrieved ++ s.inputBuffer.bytes.take len }
  | .retrieveAll => some { s with
      inputBuffer := s.inputBuffer.retrieveAll
      retrieved := s.retrieved ++ s.inputBuffer.bytes }
  | .retrieveAsString len =>
    if len ≤ s.inputBuffer.readableBytes then
      some { s with
        inputBuffer := s.inputBuffer.retrieve len
        retrieved := s.retrieved ++ s.inputBuffer.bytes.take len }
    else none

/-- `readv` fails. -/
def Action.fails : Action → Bool
  | handleRead (.error _) => true
  | _ => false

/-! ## What is promised -/

/-- What was retrieved, and then what is in the buffer, is what was received. -/
def Account (s : Input) : Prop := s.retrieved ++ s.inputBuffer.bytes = s.received

/-- The callbacks between two states. -/
def newCallbacks (s s' : Input) : List InputCallback := s'.callbacks.drop s.callbacks.length

/-- The callbacks of an action match what was read. -/
structure Matches (s : Input) (a : Action) (s' : Input) : Prop where
  /-- `messageCallback_` runs exactly if bytes were appended. -/
  message : (∃ shown, .messageCallback shown ∈ s.newCallbacks s') ↔
    ∃ data, a = .handleRead (.ok data) ∧ data ≠ []
  /-- These bytes are then at the end of the buffer, and everything received has been retrieved or
  is shown. -/
  shown : ∀ shown, .messageCallback shown ∈ s.newCallbacks s' →
    s.retrieved ++ shown = s'.received ∧ ∀ data, a = .handleRead (.ok data) →
      shown = s.inputBuffer.bytes ++ data
  /-- `handleClose` runs exactly at the end of the stream. -/
  close : .handleClose ∈ s.newCallbacks s' ↔ a = .handleRead (.ok [])
  /-- `handleError` runs exactly after a failure. -/
  error : .handleError ∈ s.newCallbacks s' ↔ a.fails = true
  /-- A failure leaves the buffer as it was. -/
  unchanged : a.fails = true → s'.inputBuffer = s.inputBuffer
  once : (s.newCallbacks s').length ≤ 1

/-! ## One read event -/

variable {s s' : Input} {a : Action} {data : Bytes} {errno : ℕ}

theorem handleRead_ok (hdata : data ≠ []) : s.handleRead (.ok data) = { s with
    inputBuffer := s.inputBuffer.readFd data
    received := s.received ++ data
    callbacks := s.callbacks ++ [.messageCallback (s.inputBuffer.bytes ++ data)] } := by
  have hpos : data.length > 0 := List.length_pos_iff.mpr hdata
  simp [handleRead, readFd, delivered, hpos]

/-- At the end of the stream. -/
theorem handleRead_nil : s.handleRead (.ok []) = { s with
    inputBuffer := s.inputBuffer.readFd []
    callbacks := s.callbacks ++ [.handleClose] } := by
  have hzero : sizeT 0 = 0 := by decide
  simp [handleRead, readFd, delivered, hzero]

/-- **A failed `readv`** is not noticed: `-1` is a large `size_t`. -/
theorem handleRead_error : s.handleRead (.error errno) = { s with
    callbacks := s.callbacks ++ [.messageCallback s.inputBuffer.bytes] } := by
  have hpos : sizeT (-1) > 0 := by decide
  simp [handleRead, readFd, delivered, hpos]

theorem newCallbacks_append {l : List InputCallback} (h : s'.callbacks = s.callbacks ++ l) :
    s.newCallbacks s' = l := by
  rw [newCallbacks, h, List.drop_left]

/-- An action other than a read event. -/
theorem matches_of_callbacks (h : s'.callbacks = s.callbacks) (ha : ∀ r, a ≠ .handleRead r) :
    Matches s a s' := by
  have hnew : s.newCallbacks s' = [] :=
    newCallbacks_append (h.trans (List.append_nil _).symm)
  have hfails : a.fails = false := by
    cases a with
    | handleRead r => exact absurd rfl (ha r)
    | _ => rfl
  refine ⟨⟨?_, ?_⟩, ?_, ?_, ?_, ?_, ?_⟩
  · rintro ⟨shown, hshown⟩
    rw [hnew] at hshown
    cases hshown
  · rintro ⟨data, rfl, -⟩
    exact absurd rfl (ha _)
  · intro shown hshown
    rw [hnew] at hshown
    cases hshown
  · rw [hnew]
    exact iff_of_false List.not_mem_nil (ha _)
  · rw [hnew, hfails]
    exact iff_of_false List.not_mem_nil Bool.false_ne_true
  · rw [hfails]
    exact nofun
  · rw [hnew]
    exact Nat.zero_le 1

/-- A read event that calls `c`. -/
theorem matches_of_callback {c : InputCallback} (h : s'.callbacks = s.callbacks ++ [c])
    (hmessage : (∃ shown, c = .messageCallback shown) ↔
      ∃ data, a = .handleRead (.ok data) ∧ data ≠ [])
    (hshown : ∀ shown, c = .messageCallback shown →
      s.retrieved ++ shown = s'.received ∧ ∀ data, a = .handleRead (.ok data) →
        shown = s.inputBuffer.bytes ++ data)
    (hclose : c = .handleClose ↔ a = .handleRead (.ok []))
    (herror : c = .handleError ↔ a.fails = true)
    (hunchanged : a.fails = true → s'.inputBuffer = s.inputBuffer) : Matches s a s' := by
  have hmem {d : InputCallback} : d ∈ s.newCallbacks s' ↔ c = d := by
    rw [newCallbacks_append h, List.mem_singleton, eq_comm]
  refine ⟨?_, fun shown hs => hshown shown (hmem.mp hs), hmem.trans hclose, hmem.trans herror,
    hunchanged, ?_⟩
  · simp only [hmem]
    exact hmessage
  · rw [newCallbacks_append h]
    exact Nat.le_refl 1

/-- **A read event that does not fail** is matched by its callback. -/
theorem matches_handleRead_ok (h : s.Account) :
    Matches s (.handleRead (.ok data)) (s.handleRead (.ok data)) := by
  by_cases hdata : data = []
  · subst hdata
    refine matches_of_callback (c := .handleClose) (by rw [handleRead_nil]) ?_ nofun
      (iff_of_true rfl rfl) (iff_of_false nofun nofun) nofun
    refine iff_of_false (fun ⟨_, hc⟩ => nomatch hc) ?_
    rintro ⟨data, ha, hne⟩
    cases ha
    exact hne rfl
  · refine matches_of_callback (c := .messageCallback (s.inputBuffer.bytes ++ data))
      (by rw [handleRead_ok hdata]) (iff_of_true ⟨_, rfl⟩ ⟨data, rfl, hdata⟩) ?_
      (iff_of_false nofun ?_) (iff_of_false nofun nofun) nofun
    · rintro shown ⟨⟩
      refine ⟨?_, ?_⟩
      · rw [handleRead_ok hdata, ← List.append_assoc, h]
      · rintro data' ⟨⟩
        rfl
    · rintro ⟨⟩
      exact hdata rfl

/-- **A read event that fails** is not. -/
theorem not_matches_handleRead_error :
    ¬Matches s (.handleRead (.error errno)) (s.handleRead (.error errno)) := by
  intro h
  have hnew : s.newCallbacks (s.handleRead (.error errno)) =
      [.messageCallback s.inputBuffer.bytes] :=
    newCallbacks_append (by rw [handleRead_error])
  obtain ⟨data, hdata, -⟩ := h.message.mp ⟨s.inputBuffer.bytes, by rw [hnew]; exact .head _⟩
  cases hdata

/-! ## Runs -/

theorem account_new : new.Account := by
  rw [Account, new, ByteBuffer.bytes_new]
  rfl

/-- **No byte is lost, doubled or moved**, whatever happens. -/
theorem Account.step (h : s.Account) (hs : s.step a = some s') : s'.Account := by
  cases a with
  | handleRead r =>
    obtain ⟨-, hs⟩ := Option.ite_none_right_eq_some.mp hs
    cases hs
    cases r with
    | error errno =>
      rw [handleRead_error]
      exact h
    | ok data =>
      by_cases hdata : data = []
      · subst hdata
        rw [handleRead_nil, Account, ByteBuffer.bytes_readFd, List.append_nil]
        exact h
      · rw [handleRead_ok hdata, Account, ByteBuffer.bytes_readFd, ← List.append_assoc, h]
  | retrieve len =>
    cases hs
    rw [Account, ByteBuffer.bytes_retrieve, List.append_assoc, List.take_append_drop]
    exact h
  | retrieveAll =>
    cases hs
    rw [Account, ByteBuffer.bytes_retrieveAll, List.append_nil]
    exact h
  | retrieveAsString len =>
    obtain ⟨-, hs⟩ := Option.ite_none_right_eq_some.mp hs
    cases hs
    rw [Account, ByteBuffer.bytes_retrieve, List.append_assoc, List.take_append_drop]
    exact h

/-- **One action** matches exactly if it is no failed `readv`. -/
theorem matches_step (h : s.Account) (hs : s.step a = some s') :
    Matches s a s' ↔ a.fails = false := by
  cases a with
  | handleRead r =>
    obtain ⟨-, hs⟩ := Option.ite_none_right_eq_some.mp hs
    cases hs
    cases r with
    | ok data => exact iff_of_true (matches_handleRead_ok h) rfl
    | error errno => exact iff_of_false not_matches_handleRead_error Bool.true_eq_false.mp
  | retrieve len =>
    cases hs
    exact iff_of_true (matches_of_callbacks rfl nofun) rfl
  | retrieveAll =>
    cases hs
    exact iff_of_true (matches_of_callbacks rfl nofun) rfl
  | retrieveAsString len =>
    obtain ⟨-, hs⟩ := Option.ite_none_right_eq_some.mp hs
    cases hs
    exact iff_of_true (matches_of_callbacks rfl nofun) rfl

/-- **Input callbacks match input.** For every sequence of read events, with any answers of `readv`,
and anything that is retrieved in between: the bytes are accounted for after every action and each
read event runs the callback that its result calls for, exactly if no `readv` fails. -/
theorem matches_iff {as : List Action} (h : Runs.exec step new as = some s) :
    Runs.Always step Account new as ∧ Runs.Each step Matches new as ↔
      ∀ a ∈ as, a.fails = false := by
  have hguarded : Runs.Always step Account new as ∧ Runs.Each step Matches new as ↔
      Runs.Guarded step (fun _ a => a.fails = false) new as :=
    Runs.always_each_iff_guarded (I := Account) account_new account_new
      (fun _ _ _ hi hs => hi.step hs)
      (fun _ _ _ hi _ hs => (and_iff_right (hi.step hs)).trans (matches_step hi hs)) h
  exact hguarded.trans (Runs.guarded_iff_forall h)

/-- Two read events, something is retrieved, and the peer closes. -/
def conversation : List Action :=
  [.handleRead (.ok [1, 2]), .retrieve 1, .handleRead (.ok [3]), .retrieveAll, .handleRead (.ok [])]

/-- The theorem at work. -/
theorem matches_iff_conversation : ∃ s, Runs.exec step new conversation = some s ∧
    s.callbacks = [.messageCallback [1, 2], .messageCallback [2, 3], .handleClose] ∧
    (Runs.Always step Account new conversation ∧ Runs.Each step Matches new conversation ↔
      ∀ a ∈ conversation, a.fails = false) := by
  have hrun : (Runs.exec step new conversation).map callbacks =
      some [.messageCallback [1, 2], .messageCallback [2, 3], .handleClose] := by
    decide +kernel
  obtain ⟨s, hs, hcallbacks⟩ := Option.map_eq_some_iff.mp hrun
  exact ⟨s, hs, hcallbacks, matches_iff hs⟩

/-- **A reset runs the message callback.** `readv` fails with `ECONNRESET` on a connection that has
received nothing. -/
theorem not_matches_reset : (Runs.exec step new [.handleRead (.error 104)]).map callbacks =
      some [.messageCallback []] ∧
    ¬(Runs.Always step Account new [.handleRead (.error 104)] ∧
      Runs.Each step Matches new [.handleRead (.error 104)]) := by
  have hstep : step new (.handleRead (.error 104)) = some (new.handleRead (.error 104)) := by
    have hoffered : (delivered (.error 104)).length ≤ new.inputBuffer.1.offered := Nat.zero_le _
    rw [step, if_pos hoffered]
  refine ⟨?_, fun h => ?_⟩
  · rw [Runs.exec_cons, hstep, handleRead_error]
    simp [Runs.exec, new]
  · exact not_matches_handleRead_error (h.2 [] _ List.prefix_rfl _ _ rfl hstep)

end Input

end Net

end Muduo
