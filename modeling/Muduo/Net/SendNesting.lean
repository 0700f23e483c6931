import Muduo.Net.TcpOutput

/-! # Calls inside the write-complete callback

`sendInLoop` and `sendFileInLoop` call `writeCompleteCallback_` themselves when the kernel takes
everything at once; the comment above the call says that it is not made directly. A callback that
sends again then runs inside a callback that runs inside the first call, and so on.

`Sends` and `SendsFile` say what the calls do to the output; `Enters` says what they do to the calls
that are running. **`flat_iff`**: no callback ever runs inside a call that sends, and every such
call has returned when its action is over, exactly if no call completes at once while the callback
is set. -/

namespace Muduo

namespace Net

/-- The callback was called by `sendInLoop` or `sendFileInLoop`. -/
def Frame.isSend : Frame → Bool
  | .handleWrite => false
  | _ => true

namespace Sender

variable {s t : Sender}

/-- No callback runs inside `sendInLoop` or `sendFileInLoop`, or inside another callback. -/
structure Flat (s : Sender) : Prop where
  /-- The calls that wait for the callback do not send. -/
  outside : ∀ f ∈ s.frames, f.isSend = false
  /-- There is at most one of them. -/
  depth : s.frames.length ≤ 1

/-- A call of `send` or `sendFile` in this action has returned at its end. -/
def Returned (s : Sender) : Action → Sender → Prop
  | .send .., t | .sendFile .., t => t.frames = s.frames
  | _, _ => True

/-- In this action the kernel takes all of a message or a file that is sent with nothing pending,
and the callback is set. -/
def CompletesAtOnce (s : Sender) : Action → Prop
  | .send m r => s.DirectWrite ∧ r = .count m.len ∧ s.conn.writeCompleteCallback = true
  | .sendFile file r => s.DirectWrite ∧ 0 ≤ file.fd ∧ file.fileSize = r.toSize ∧
      s.conn.writeCompleteCallback = true
  | _ => False

instance (s : Sender) : ∀ a, Decidable (s.CompletesAtOnce a)
  | .send .. => inferInstanceAs (Decidable (_ ∧ _ ∧ _))
  | .sendFile .. => inferInstanceAs (Decidable (_ ∧ _ ∧ _ ∧ _))
  | .setWriteCompleteCallback _ | .handleWrite _ | .callbackReturns =>
    inferInstanceAs (Decidable False)

/-! ## The calls that are running -/

@[simp] theorem frames_bufferRest (s : Sender) (m : Message) (nwrote remain : BitVec 64)
    (faultError : Bool) : (s.bufferRest m nwrote remain faultError).frames = s.frames := by
  rw [bufferRest]
  split_ifs <;> rfl

@[simp] theorem frames_keepFile (s : Sender) (file : File) (remain : BitVec 64)
    (faultError : Bool) : (s.keepFile file remain faultError).frames = s.frames := by
  rw [keepFile]
  split_ifs <;> rfl

/-- What is left of a message is nothing exactly if all of it was taken. -/
theorem remain_eq_zero_iff {m : Message} {r : Written} (h : r.taken ≤ m.len) :
    BitVec.ofNat 64 m.len - r.toSize = 0 ↔ r = .count m.len := by
  cases r with
  | failed e =>
    refine iff_of_false (fun h0 => ?_) nofun
    have hlen := remain_failed m
    rw [Written.toSize] at h0
    rw [h0] at hlen
    exact absurd hlen (Nat.succ_ne_zero _).symm
  | count n =>
    have hlen : (BitVec.ofNat 64 m.len - BitVec.ofNat 64 n).toNat = m.len - n := remain_count h
    have hle : n ≤ m.len := h
    rw [Written.toSize, Written.count.injEq]
    constructor
    · intro h0
      rw [h0] at hlen
      have hrest : m.len - n = 0 := hlen.symm
      omega
    · rintro rfl
      exact BitVec.sub_self _

/-- **What a call that sends does to the calls that are running.** -/
inductive Enters (s : Sender) (a : Action) (t : Sender) : Prop
  /-- It calls the callback. -/
  | inside (f : Frame) : s.CompletesAtOnce a → f.isSend = true → t.frames = f :: s.frames →
      Enters s a t
  /-- It returns. -/
  | returned : ¬ s.CompletesAtOnce a → t.frames = s.frames → Enters s a t

/-- `send` calls the callback exactly if it completes at once. -/
theorem enters_send {m : Message} {r : Written} (h : s.send m r = some t) :
    s.Enters (.send m r) t := by
  by_cases hdirect : s.DirectWrite
  · rw [send_direct hdirect] at h
    obtain ⟨u, hu, rfl⟩ := Option.map_eq_some_iff.mp h
    obtain ⟨hle, rfl⟩ := accept_eq_some.mp hu
    rw [length_bytes] at hle
    by_cases hall : BitVec.ofNat 64 m.len - r.toSize = 0 ∧ s.conn.writeCompleteCallback = true
    · simp only [if_pos hall]
      exact .inside _ ⟨hdirect, (remain_eq_zero_iff hle).mp hall.1, hall.2⟩ rfl rfl
    · simp only [if_neg hall]
      refine .returned ?_ (frames_bufferRest ..)
      rintro ⟨-, hr, hcallback⟩
      exact hall ⟨(remain_eq_zero_iff hle).mpr hr, hcallback⟩
  · refine .returned (fun hall => hdirect hall.1) ?_
    by_cases hstate : s.conn.state = .kConnected
    · rw [send_buffered hstate hdirect, Option.some_inj] at h
      rw [← h, frames_bufferRest]
    · rw [send, if_neg hstate, Option.some_inj] at h
      rw [h]

/-- `sendFile` calls the callback exactly if it completes at once. -/
theorem enters_sendFile {file : File} {r : Written} (h : s.sendFile file r = some t) :
    s.Enters (.sendFile file r) t := by
  rw [Sender.sendFile] at h
  by_cases hstate : s.conn.state = .kConnected
  · rw [if_pos hstate, sendFileInLoop] at h
    split_ifs at h with hfile hfd hdirect
    · -- the file could not be opened
      cases h
      exact .returned (fun hall => absurd hall.2.1 (Int.not_le.mpr hfd)) rfl
    · obtain ⟨u, hu, rfl⟩ := Option.map_eq_some_iff.mp h
      obtain ⟨-, rfl⟩ := accept_eq_some.mp hu
      have hzero : file.fileSize - r.toSize = 0 ↔ file.fileSize = r.toSize :=
        ⟨fun h0 => (BitVec.sub_eq_iff_eq_add.mp h0).trans (BitVec.zero_add _),
          fun heq => by rw [heq]; exact BitVec.sub_self _⟩
      dsimp only
      by_cases hall : file.fileSize - r.toSize = 0 ∧ s.conn.writeCompleteCallback = true
      · rw [if_pos hall]
        exact .inside _ ⟨⟨hstate, hdirect⟩, Int.not_lt.mp hfd, hzero.mp hall.1, hall.2⟩ rfl rfl
      · rw [if_neg hall]
        refine .returned ?_ (frames_keepFile ..)
        rintro ⟨-, -, hr, hcallback⟩
        exact hall ⟨hzero.mpr hr, hcallback⟩
    · rw [Option.some_inj] at h
      refine .returned (fun hall => hdirect hall.1.2) ?_
      rw [← h, frames_keepFile]
  · rw [if_neg hstate, Option.some_inj] at h
    exact .returned (fun hall => hstate hall.1.1) (by rw [h])

/-- `handleWrite` calls the callback, if any, from no call that sends. -/
theorem frames_handleWrite {r : Written} (h : s.handleWrite r = some t) :
    t.frames = s.frames ∨ t.frames = .handleWrite :: s.frames := by
  rw [handleWrite] at h
  split_ifs at h
  cases hfile : s.conn.file with
  | none =>
    rw [hfile] at h
    exact (handleWriteBuffer_spec h).2.2.2.2
  | some file =>
    rw [hfile, Option.some_inj] at h
    subst h
    rw [handleWriteFile]
    by_cases hdone : s.conn.fileWrote + r.toSize = file.fileSize
    · rw [if_pos hdone]
      dsimp only
      split_ifs
      · exact .inr rfl
      · exact .inl rfl
    · rw [if_neg hdone]
      exact .inl rfl

/-! ## Runs -/

theorem flat_established (callback : Bool) : (established callback).Flat :=
  ⟨nofun, Nat.zero_le 1⟩

theorem Flat.of_frames (h : s.Flat) (heq : t.frames = s.frames) : t.Flat :=
  ⟨by rw [heq]; exact h.outside, by rw [heq]; exact h.depth⟩

/-- A call that sends leaves the calls flat, and returns, exactly if it does not complete at
once. -/
theorem Flat.enters_iff (h : s.Flat) {a : Action} (henters : s.Enters a t)
    (hreturned : s.Returned a t ↔ t.frames = s.frames) :
    t.Flat ∧ s.Returned a t ↔ ¬ s.CompletesAtOnce a := by
  cases henters with
  | inside f hall hsend hframes =>
    refine iff_of_false (fun hflat => ?_) (not_not_intro hall)
    have hf := hflat.1.outside f (by rw [hframes]; exact List.mem_cons_self)
    rw [hsend] at hf
    cases hf
  | returned hnot hframes =>
    exact iff_of_true ⟨h.of_frames hframes, hreturned.mpr hframes⟩ hnot

/-- **One action** leaves the calls flat, and returns from a call that sends, exactly if it does not
complete at once. -/
theorem Flat.step_iff (h : s.Flat) {a : Action} (hs : s.step a = some t) :
    t.Flat ∧ s.Returned a t ↔ ¬ s.CompletesAtOnce a := by
  cases a with
  | send m r => exact h.enters_iff (enters_send hs) Iff.rfl
  | sendFile file r => exact h.enters_iff (enters_sendFile hs) Iff.rfl
  | setWriteCompleteCallback on =>
    cases hs
    exact iff_of_true ⟨h.of_frames rfl, trivial⟩ not_false
  | handleWrite r =>
    rw [Sender.step] at hs
    split_ifs at hs with hempty
    have hnil : s.frames = [] := List.isEmpty_iff.mp hempty
    refine iff_of_true ⟨?_, trivial⟩ not_false
    -- events are dispatched between callbacks, so this is the only one
    rcases frames_handleWrite hs with hframes | hframes
    · exact h.of_frames hframes
    · rw [hnil] at hframes
      have houtside : ∀ f ∈ t.frames, f.isSend = false := by
        rw [hframes]
        exact List.forall_mem_singleton.mpr rfl
      have hdepth : t.frames.length ≤ 1 := by
        rw [hframes]
        exact le_rfl
      exact ⟨houtside, hdepth⟩
  | callbackReturns =>
    refine iff_of_true ⟨?_, trivial⟩ not_false
    rw [Sender.step] at hs
    cases hframes : s.frames with
    | nil =>
      rw [hframes] at hs
      cases hs
    | cons f frames =>
      have hf := h.outside f (by rw [hframes]; exact List.mem_cons_self)
      have hdepth := h.depth
      rw [hframes, List.length_cons] at hdepth
      rw [hframes, Option.some_inj] at hs
      cases f with
      | sendInLoop => cases hf
      | sendFileInLoop => cases hf
      | handleWrite =>
        subst hs
        obtain rfl : frames = [] := List.length_eq_zero_iff.mp (by omega)
        exact ⟨List.forall_mem_nil _, Nat.zero_le 1⟩

/-- **When the callback does not nest.** In a run of `send`, `sendFile` and write events, with any
results of the kernel, and with any calls from inside the callback: after every action no callback
is running inside a call that sends or inside another callback, and every call that sends has
returned, if and only if no such call, with nothing pending and the callback set, has everything
taken by the kernel at once. -/
theorem flat_iff {callback : Bool} {as : List Action}
    (h : Runs.exec step (established callback) as = some s) :
    Runs.Always step Flat (established callback) as ∧
        Runs.Each step Returned (established callback) as ↔
      Runs.Guarded step (fun s a => ¬ s.CompletesAtOnce a) (established callback) as :=
  Runs.always_each_iff_guarded (I := fun _ => True) trivial (flat_established callback)
    (fun _ _ _ _ _ => trivial) (fun _ _ _ _ hflat hs => hflat.step_iff hs) h

/-- The theorem at work: a message is written in two parts, and the callback sends again, in two
parts. -/
theorem flat_iff_two : ∃ s : Sender,
    Runs.exec step (established true) [.send abcde (.count 2), .handleWrite (.count 3),
      .send abcde (.count 4), .callbackReturns, .handleWrite (.count 1)] = some s ∧
    Runs.Always step Flat (established true) [.send abcde (.count 2), .handleWrite (.count 3),
      .send abcde (.count 4), .callbackReturns, .handleWrite (.count 1)] := by
  have hsome : (Runs.exec step (established true) [.send abcde (.count 2), .handleWrite (.count 3),
      .send abcde (.count 4), .callbackReturns, .handleWrite (.count 1)]).isSome = true := by
    decide +kernel
  obtain ⟨s, hs⟩ := Option.isSome_iff_exists.mp hsome
  exact ⟨s, hs, ((flat_iff hs).mpr (by decide +kernel)).1⟩

/-- Nothing is pending, and the callback is set. -/
structure Idle (s : Sender) : Prop where
  direct : s.DirectWrite
  callback : s.conn.writeCompleteCallback = true

/-- A message that the kernel takes at once leaves the connection idle, one call deeper. -/
theorem Idle.send (h : s.Idle) (m : Message) :
    ∃ t f, s.step (.send m (.count m.len)) = some t ∧ t.Idle ∧ f.isSend = true ∧
      t.frames = f :: s.frames := by
  have htake : (Written.count m.len).taken ≤ m.bytes.length := (length_bytes m).ge
  have hstep : s.step (.send m (.count m.len)) = some ({ s with
      sent := s.sent ++ m.bytes
      accepted := s.accepted ++ m.bytes.take m.len }.callback
        (.sendInLoop m (BitVec.ofNat 64 m.len) (BitVec.ofNat 64 m.len - BitVec.ofNat 64 m.len)
          false)) := by
    show s.send m (.count m.len) = _
    rw [send_direct h.direct, accept, if_pos htake, Option.map_some,
      if_pos ⟨BitVec.sub_self _, h.callback⟩]
    rfl
  exact ⟨_, _, hstep, ⟨h.direct, h.callback⟩, rfl, rfl⟩

/-- As many messages as one likes are sent, one inside the other. -/
theorem Idle.exec_replicate (h : s.Idle) (hsend : ∀ f ∈ s.frames, f.isSend = true) (m : Message)
    (n : ℕ) : ∃ t, Runs.exec step s (List.replicate n (.send m (.count m.len))) = some t ∧
      t.frames.length = s.frames.length + n ∧ ∀ f ∈ t.frames, f.isSend = true := by
  induction n generalizing s with
  | zero => exact ⟨s, rfl, rfl, hsend⟩
  | succ n ih =>
    obtain ⟨t, f, hstep, ht, hf, hframes⟩ := h.send m
    have htsend : ∀ g ∈ t.frames, g.isSend = true := by
      rw [hframes]
      exact List.forall_mem_cons.mpr ⟨hf, hsend⟩
    obtain ⟨u, hu, hlength, husend⟩ := ih ht htsend
    refine ⟨u, ?_, ?_, husend⟩
    · rw [List.replicate_succ, Runs.exec_cons, hstep, Option.bind_some]
      exact hu
    · rw [hlength, hframes, List.length_cons]
      omega

/-- **A callback that sends again**: if the kernel takes every message at once, the calls are nested
as deep as one likes, each inside a callback of the one before, and none of them has returned. -/
theorem not_flat_nested : (∀ n : ℕ, ∃ s, Runs.exec step (established true)
      (List.replicate n (.send abcde (.count 5))) = some s ∧ s.frames.length = n ∧
        ∀ f ∈ s.frames, f.isSend = true) ∧
    ¬ ∀ (callback : Bool) (as : List Action) (s : Sender),
      Runs.exec step (established callback) as = some s → s.Flat := by
  have hnested (n : ℕ) : ∃ s, Runs.exec step (established true)
      (List.replicate n (.send abcde (.count 5))) = some s ∧ s.frames.length = n ∧
        ∀ f ∈ s.frames, f.isSend = true := by
    have hidle : (established true).Idle := ⟨by decide, rfl⟩
    obtain ⟨t, ht, hlength, hsend⟩ := hidle.exec_replicate nofun abcde n
    exact ⟨t, ht, hlength.trans (Nat.zero_add n), hsend⟩
  refine ⟨hnested, fun hall => ?_⟩
  -- one message is enough
  obtain ⟨s, hs, hlength, hsend⟩ := hnested 1
  obtain ⟨f, hf⟩ := List.exists_mem_of_length_pos (hlength.symm ▸ Nat.zero_lt_one)
  exact Bool.false_ne_true (((hall true _ s hs).outside f hf).symm.trans (hsend f hf))

end Sender

end Net

end Muduo
