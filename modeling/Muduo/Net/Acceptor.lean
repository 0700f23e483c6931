import Mathlib.Data.Finset.Basic
import Muduo.Foundations.Descriptors
import Muduo.Foundations.Runs

/-! # `Acceptor`: the descriptors that it closes

`muduo/net/Acceptor.cc` with `Socket::accept` and `sockets::close`, from the constructor to the
destructor. Between any two system calls the rest of the process opens and closes descriptors of its
own. `-1` in place of a descriptor is `none`.

When `accept` fails with `EMFILE`, `handleRead` closes `idlefd_`, accepts and closes the connection,
and does not open `/dev/null` again: `idlefd_` then is a number that is not open, or that belongs to
whoever opens a descriptor next, and the following `EMFILE` closes it.

**`Acceptor.serves_iff`**: `idlefd_` is an open reserve after every `handleRead`, and nobody else's
descriptor is closed, exactly in the runs without `EMFILE` whose `handleRead`s find a reserve. -/

namespace Muduo

namespace Net

/-- The `errno` of a process that has no descriptors left. -/
def EMFILE : ℕ := 24

/-- The `errno` of an `accept` without a connection; `EWOULDBLOCK` is the same. -/
def EAGAIN : ℕ := 11

/-- Who has opened a descriptor and may close it. -/
inductive Owner
  /-- `acceptSocket_`. -/
  | acceptSocket
  /-- The `Acceptor`, which opened `/dev/null`. -/
  | reserve
  /-- The `accept` that returned it last. -/
  | accepted
  /-- The rest of the process. -/
  | other
deriving DecidableEq, Repr

/-- Where the loop thread is in `Acceptor`. -/
inductive AcceptorPc
  /-- In the constructor, before `createNonBlockSocketOrDie`. -/
  | socket
  /-- In the constructor, before `open("/dev/null",…)`. -/
  | openNull
  /-- In no function of `Acceptor`. -/
  | outside
  /-- In `handleRead`, at the test of the loop. -/
  | accept
  /-- In `handleRead`, in the body of the loop. -/
  | accepted (connfd : ℕ)
  /-- After `EMFILE`, at the first `close(idlefd_)`. -/
  | giveUp
  /-- After `EMFILE`, at `idlefd_=accept(…)`. -/
  | reaccept
  /-- After `EMFILE`, at the second `close(idlefd_)`. -/
  | closeAgain
  /-- In the destructor, before `~Socket`. -/
  | closeSocket
  | destroyed
deriving DecidableEq, Repr

/-- The loop thread is in `handleRead`. -/
def AcceptorPc.inHandleRead : AcceptorPc → Bool
  | accept => true
  | accepted _ => true
  | giveUp => true
  | reaccept => true
  | closeAgain => true
  | _ => false

/-- It has seen `EMFILE`. -/
def AcceptorPc.exhausted : AcceptorPc → Bool
  | giveUp => true
  | reaccept => true
  | closeAgain => true
  | _ => false

/-- The destructor has not begun. -/
def AcceptorPc.live : AcceptorPc → Bool
  | closeSocket => false
  | destroyed => false
  | _ => true

/-- `Acceptor`, with the descriptors of the process. -/
structure Acceptor where
  /-- `acceptSocket_.fd()`. -/
  acceptSocket : Option ℕ
  /-- `idlefd_`. -/
  idlefd : Option ℕ
  /-- Whether `newConnectionCallback_` is set. -/
  newConnectionCallback : Bool
  /-- Whether `acceptChannel_` is enabled for reading. -/
  reading : Bool
  pc : AcceptorPc
  fds : Descriptors Owner
  /-- What `Acceptor` and `acceptSocket_` have closed, in order, and whose it was. -/
  closed : List (ℕ × Option Owner)

namespace Acceptor

/-- Before the constructor, in a process that has opened `others`. -/
def start (others : Finset ℕ) : Acceptor where
  acceptSocket := none
  idlefd := none
  newConnectionCallback := false
  reading := false
  pc := .socket
  fds fd := if fd ∈ others then some .other else none
  closed := []

/-- What can happen. A system call returns a descriptor, or fails. -/
inductive Action
  /-- `createNonBlockSocketOrDie` in the constructor. -/
  | socket (r : Option ℕ)
  /-- `open("/dev/null",O_CLOEXEC|O_RDONLY)` in the constructor. -/
  | openNull (r : Option ℕ)
  /-- `setNewConnectionCallback`, with a function or without one. -/
  | setNewConnectionCallback (set : Bool)
  | listen
  /-- The loop calls `handleRead`. -/
  | handleRead
  /-- `accept` at the test of the loop; where it fails, its `errno`. -/
  | accept (r : Except ℕ ℕ)
  /-- The body of the loop. -/
  | newConnection
  /-- The first `close(idlefd_)`. -/
  | giveUp
  /-- `idlefd_=accept(acceptSocket_.fd(),nullptr,nullptr)`. -/
  | reaccept (r : Option ℕ)
  /-- The second `close(idlefd_)`. -/
  | closeAgain
  /-- The body of the destructor. -/
  | destroy
  /-- `~Socket` in the destructor. -/
  | closeSocket
  /-- The rest of the process opens a descriptor. -/
  | otherOpens (fd : ℕ)
  /-- The rest of the process closes one of its descriptors. -/
  | otherCloses (fd : ℕ)
deriving DecidableEq, Repr

/-- A system call that returns `r`; a descriptor goes to `o`. -/
def receive (s : Acceptor) (r : Option ℕ) (o : Owner) : Option Acceptor :=
  match r with
  | none => some s
  | some fd => (s.fds.assign fd o).map fun t => { s with fds := t }

/-- `close(fd)`, which does nothing for `-1`. -/
def close (s : Acceptor) (fd : Option ℕ) : Acceptor :=
  match fd with
  | none => s
  | some n => { s with fds := s.fds.close n, closed := s.closed ++ [(n, s.fds n)] }

/-- The body of the loop in `handleRead`. -/
def newConnection (s : Acceptor) (connfd : ℕ) : Acceptor :=
  if s.newConnectionCallback then
    -- from here on the connection is the server's
    { s with fds := Function.update s.fds connfd (some .other), pc := .accept }
  else { s.close connfd with pc := .accept }

/-- One action. -/
def step (s : Acceptor) : Action → Option Acceptor
  | .socket r =>
    if s.pc = .socket then
      (s.receive r .acceptSocket).map fun s => { s with acceptSocket := r, pc := .openNull }
    else none
  | .openNull r =>
    if s.pc = .openNull then
      (s.receive r .reserve).map fun s => { s with idlefd := r, pc := .outside }
    else none
  | .setNewConnectionCallback set =>
    if s.pc = .outside then some { s with newConnectionCallback := set } else none
  | .listen => if s.pc = .outside then some { s with reading := true } else none
  | .handleRead =>
    if s.pc = .outside ∧ s.reading = true then some { s with pc := .accept } else none
  | .accept (.ok connfd) =>
    -- only a socket accepts
    if s.pc = .accept ∧ s.acceptSocket ≠ none then
      (s.receive connfd .accepted).map fun s => { s with pc := .accepted connfd }
    else none
  | .accept (.error errno) =>
    -- other errors than `EMFILE` are logged at most
    if s.pc = .accept then some { s with pc := if errno = EMFILE then .giveUp else .outside }
    else none
  | .newConnection =>
    match s.pc with
    | .accepted connfd => some (s.newConnection connfd)
    | _ => none
  | .giveUp =>
    if s.pc = .giveUp then some { s.close s.idlefd with pc := .reaccept } else none
  | .reaccept r =>
    if s.pc = .reaccept then
      (s.receive r .accepted).map fun s => { s with idlefd := r, pc := .closeAgain }
    else none
  | .closeAgain =>
    if s.pc = .closeAgain then some { s.close s.idlefd with pc := .outside } else none
  | .destroy =>
    if s.pc = .outside then some { s.close s.idlefd with pc := .closeSocket } else none
  | .closeSocket =>
    if s.pc = .closeSocket then some { s.close s.acceptSocket with pc := .destroyed } else none
  | .otherOpens fd => (s.fds.assign fd .other).map fun t => { s with fds := t }
  | .otherCloses fd =>
    if s.fds fd = some .other then some { s with fds := s.fds.close fd } else none

/-! ## What is promised -/

/-- `idlefd_` is an open reserve descriptor of the `Acceptor`. -/
def HasReserve (s : Acceptor) : Prop := ∃ fd, s.idlefd = some fd ∧ s.fds fd = some .reserve

/-- Everything that was closed belonged to the `Acceptor` or to an `accept` of its. -/
def ClosesOwn (s : Acceptor) : Prop := ∀ x ∈ s.closed, x.2 ≠ none ∧ x.2 ≠ some .other

/-- What holds around an action: a `handleRead` that ends leaves a reserve, and no descriptor of
somebody else is closed. -/
def Serves (s : Acceptor) (_ : Action) (s' : Acceptor) : Prop :=
  (s.pc.inHandleRead = true → s'.pc = .outside → s'.HasReserve) ∧ s'.ClosesOwn

/-- A `handleRead` begins with a reserve, and no `accept` fails with `EMFILE`. -/
def Allowed (s : Acceptor) : Action → Prop
  | .handleRead => s.idlefd ≠ none
  | .accept (.error errno) => errno ≠ EMFILE
  | _ => True

instance (s : Acceptor) : (a : Action) → Decidable (s.Allowed a)
  | .handleRead => inferInstanceAs (Decidable (s.idlefd ≠ none))
  | .accept (.error errno) => inferInstanceAs (Decidable (errno ≠ EMFILE))
  | .accept (.ok _) | .socket _ | .openNull _ | .setNewConnectionCallback _ | .listen
  | .newConnection | .giveUp | .reaccept _ | .closeAgain | .destroy | .closeSocket | .otherOpens _
  | .otherCloses _ => isTrue trivial

variable {s s' : Acceptor} {a : Action} {fd : Option ℕ} {o : Owner}

/-! ## System calls -/

/-- What a system call that returns `fd` leaves as it is. -/
structure Received (fd : Option ℕ) (o : Owner) (s s' : Acceptor) : Prop where
  acceptSocket : s'.acceptSocket = s.acceptSocket
  idlefd : s'.idlefd = s.idlefd
  pc : s'.pc = s.pc
  closed : s'.closed = s.closed
  /-- What is open stays open. -/
  keeps : ∀ n p, s.fds n = some p → s'.fds n = some p
  self : ∀ n, fd = some n → s'.fds n = some o

theorem received_of_receive (h : s.receive fd o = some s') : Received fd o s s' := by
  cases fd with
  | none =>
    cases h
    exact ⟨rfl, rfl, rfl, rfl, fun _ _ hn => hn, nofun⟩
  | some n =>
    obtain ⟨t, ht, rfl⟩ := Option.map_eq_some_iff.mp h
    refine ⟨rfl, rfl, rfl, rfl, fun m p hm => Descriptors.keeps_assign ht hm, fun m hm => ?_⟩
    cases hm
    exact Descriptors.assign_self ht

/-- What a close leaves as it is. -/
structure Closes (fd : Option ℕ) (s s' : Acceptor) : Prop where
  acceptSocket : s'.acceptSocket = s.acceptSocket
  idlefd : s'.idlefd = s.idlefd
  /-- What belongs to somebody else stays open. -/
  keeps : ∀ n p, (∀ m, fd = some m → s.fds m ≠ some p) → s.fds n = some p → s'.fds n = some p
  self : ∀ n, fd = some n → s'.fds n = none
  closed : ∀ x ∈ s'.closed, x ∈ s.closed ∨ ∃ n, fd = some n ∧ x = (n, s.fds n)

theorem closes_close : Closes fd s (s.close fd) := by
  cases fd with
  | none => exact ⟨rfl, rfl, fun _ _ _ hn => hn, nofun, fun x hx => .inl hx⟩
  | some n =>
    refine ⟨rfl, rfl, fun m p ho hm => Descriptors.keeps_close (ho n rfl) hm, fun m hm => ?_,
      fun x hx => ?_⟩
    · cases hm
      exact Descriptors.close_self
    · rcases List.mem_append.mp hx with hx | hx
      · exact .inl hx
      · exact .inr ⟨n, rfl, List.mem_singleton.mp hx⟩

/-- A close of one's own descriptor. -/
theorem Closes.closesOwn (h : Closes fd s s') (hs : s.ClosesOwn)
    (hfd : ∀ n, fd = some n → s.fds n = some o) (ho : o ≠ .other) : s'.ClosesOwn := by
  intro x hx
  rcases h.closed x hx with hx | ⟨n, hn, rfl⟩
  · exact hs x hx
  · rw [hfd n hn]
    exact ⟨nofun, fun heq => ho (Option.some.inj heq)⟩

/-- What each action does. -/
inductive Steps (s : Acceptor) : Action → Acceptor → Prop
  | socket {r t} : s.pc = .socket → Received r .acceptSocket s t →
      Steps s (.socket r) { t with acceptSocket := r, pc := .openNull }
  | openNull {r t} : s.pc = .openNull → Received r .reserve s t →
      Steps s (.openNull r) { t with idlefd := r, pc := .outside }
  | setNewConnectionCallback {set} : s.pc = .outside →
      Steps s (.setNewConnectionCallback set) { s with newConnectionCallback := set }
  | listen : s.pc = .outside → Steps s .listen { s with reading := true }
  | handleRead : s.pc = .outside → Steps s .handleRead { s with pc := .accept }
  | accept {connfd t} : s.pc = .accept → Received (some connfd) .accepted s t →
      Steps s (.accept (.ok connfd)) { t with pc := .accepted connfd }
  | exhausted : s.pc = .accept → Steps s (.accept (.error EMFILE)) { s with pc := .giveUp }
  | fails {errno} : s.pc = .accept → errno ≠ EMFILE →
      Steps s (.accept (.error errno)) { s with pc := .outside }
  | handsOver {connfd} : s.pc = .accepted connfd →
      Steps s .newConnection
        { s with fds := Function.update s.fds connfd (some .other), pc := .accept }
  | closes {connfd t} : s.pc = .accepted connfd → Closes (some connfd) s t →
      Steps s .newConnection { t with pc := .accept }
  | giveUp {t} : s.pc = .giveUp → Closes s.idlefd s t →
      Steps s .giveUp { t with pc := .reaccept }
  | reaccept {r t} : s.pc = .reaccept → Received r .accepted s t →
      Steps s (.reaccept r) { t with idlefd := r, pc := .closeAgain }
  | closeAgain {t} : s.pc = .closeAgain → Closes s.idlefd s t →
      Steps s .closeAgain { t with pc := .outside }
  | destroy {t} : s.pc = .outside → Closes s.idlefd s t →
      Steps s .destroy { t with pc := .closeSocket }
  | closeSocket {t} : s.pc = .closeSocket → Closes s.acceptSocket s t →
      Steps s .closeSocket { t with pc := .destroyed }
  | otherOpens {n t} : Received (some n) .other s t → Steps s (.otherOpens n) t
  | otherCloses {n} : s.fds n = some .other →
      Steps s (.otherCloses n) { s with fds := s.fds.close n }

theorem steps_of_step (h : s.step a = some s') : Steps s a s' := by
  cases a with
  | socket r =>
    obtain ⟨hpc, h⟩ := Option.ite_none_right_eq_some.mp h
    obtain ⟨t, ht, rfl⟩ := Option.map_eq_some_iff.mp h
    exact .socket hpc (received_of_receive ht)
  | openNull r =>
    obtain ⟨hpc, h⟩ := Option.ite_none_right_eq_some.mp h
    obtain ⟨t, ht, rfl⟩ := Option.map_eq_some_iff.mp h
    exact .openNull hpc (received_of_receive ht)
  | setNewConnectionCallback set =>
    obtain ⟨hpc, h⟩ := Option.ite_none_right_eq_some.mp h
    cases h
    exact .setNewConnectionCallback hpc
  | listen =>
    obtain ⟨hpc, h⟩ := Option.ite_none_right_eq_some.mp h
    cases h
    exact .listen hpc
  | handleRead =>
    obtain ⟨hpc, h⟩ := Option.ite_none_right_eq_some.mp h
    cases h
    exact .handleRead hpc.1
  | accept r =>
    cases r with
    | ok connfd =>
      obtain ⟨hpc, h⟩ := Option.ite_none_right_eq_some.mp h
      obtain ⟨t, ht, rfl⟩ := Option.map_eq_some_iff.mp h
      exact .accept hpc.1 (received_of_receive ht)
    | error errno =>
      obtain ⟨hpc, h⟩ := Option.ite_none_right_eq_some.mp h
      cases h
      split_ifs with he
      · subst he
        exact .exhausted hpc
      · exact .fails hpc he
  | newConnection =>
    rw [step] at h
    split at h
    · next connfd hpc =>
      cases h
      rw [newConnection]
      split_ifs
      · exact .handsOver hpc
      · exact .closes hpc closes_close
    · cases h
  | giveUp =>
    obtain ⟨hpc, h⟩ := Option.ite_none_right_eq_some.mp h
    cases h
    exact .giveUp hpc closes_close
  | reaccept r =>
    obtain ⟨hpc, h⟩ := Option.ite_none_right_eq_some.mp h
    obtain ⟨t, ht, rfl⟩ := Option.map_eq_some_iff.mp h
    exact .reaccept hpc (received_of_receive ht)
  | closeAgain =>
    obtain ⟨hpc, h⟩ := Option.ite_none_right_eq_some.mp h
    cases h
    exact .closeAgain hpc closes_close
  | destroy =>
    obtain ⟨hpc, h⟩ := Option.ite_none_right_eq_some.mp h
    cases h
    exact .destroy hpc closes_close
  | closeSocket =>
    obtain ⟨hpc, h⟩ := Option.ite_none_right_eq_some.mp h
    cases h
    exact .closeSocket hpc closes_close
  | otherOpens fd => exact .otherOpens (received_of_receive h)
  | otherCloses fd =>
    obtain ⟨hfd, h⟩ := Option.ite_none_right_eq_some.mp h
    cases h
    exact .otherCloses hfd

/-! ## Without `EMFILE` -/

/-- The `Acceptor` holds its descriptors. -/
def Owns (s : Acceptor) : Prop :=
  (∀ n, s.idlefd = some n → s.fds n = some .reserve) ∧
    ∀ n, s.acceptSocket = some n → s.fds n = some .acceptSocket

/-- The invariant: what `Acceptor` would close is its own. -/
structure Inv (s : Acceptor) : Prop where
  owns : s.pc.live = true → s.Owns
  socket : s.pc = .closeSocket → ∀ n, s.acceptSocket = some n → s.fds n = some .acceptSocket
  accepted : ∀ n, s.pc = .accepted n → s.fds n = some .accepted
  reading : s.pc.inHandleRead = true → s.idlefd ≠ none ∧ s.pc.exhausted = false
  closesOwn : s.ClosesOwn

theorem inv_start {others : Finset ℕ} : (start others).Inv :=
  ⟨fun _ => ⟨fun _ h => (nomatch h), fun _ h => (nomatch h)⟩, nofun, nofun, nofun, nofun⟩

/-- A state in which the `Acceptor` holds its descriptors. -/
theorem Owns.inv (h : s.Owns) (haccepted : ∀ n, s.pc = .accepted n → s.fds n = some .accepted)
    (hreading : s.pc.inHandleRead = true → s.idlefd ≠ none ∧ s.pc.exhausted = false)
    (hclosed : s.ClosesOwn) : s.Inv :=
  ⟨fun _ => h, fun _ => h.2, haccepted, hreading, hclosed⟩

/-- What the rest of the process does keeps the invariant. -/
theorem Inv.of_keeps (h : s.Inv) (hpc : s'.pc = s.pc) (hidle : s'.idlefd = s.idlefd)
    (hsocket : s'.acceptSocket = s.acceptSocket) (hclosed : s'.closed = s.closed)
    (hkeeps : ∀ n o, o ≠ .other → s.fds n = some o → s'.fds n = some o) : s'.Inv := by
  refine ⟨fun hl => ⟨fun n hn => ?_, fun n hn => ?_⟩, fun hp n hn => ?_, fun n hn => ?_,
    fun hr => ?_, ?_⟩
  · exact hkeeps n _ nofun ((h.owns (hpc ▸ hl)).1 n (hidle ▸ hn))
  · exact hkeeps n _ nofun ((h.owns (hpc ▸ hl)).2 n (hsocket ▸ hn))
  · exact hkeeps n _ nofun (h.socket (hpc ▸ hp) n (hsocket ▸ hn))
  · exact hkeeps n _ nofun (h.accepted n (hpc ▸ hn))
  · rw [hidle, hpc]
    exact h.reading (hpc ▸ hr)
  · rw [ClosesOwn, hclosed]
    exact h.closesOwn

theorem Inv.received (h : s.Inv) (hr : Received fd o s s') : s'.Inv :=
  h.of_keeps hr.pc hr.idlefd hr.acceptSocket hr.closed fun n p _ => hr.keeps n p

/-- **Every allowed action** keeps the invariant. -/
theorem Inv.step (h : s.Inv) (ha : s.Allowed a) (hs : s.step a = some s') : s'.Inv := by
  cases steps_of_step hs with
  | socket hpc hr =>
    have h' := h.received hr
    have hown : _ ∧ _ := h'.owns (by rw [hr.pc, hpc]; rfl)
    exact Owns.inv ⟨hown.1, hr.self⟩ nofun nofun h'.closesOwn
  | openNull hpc hr =>
    have h' := h.received hr
    have hown : _ ∧ _ := h'.owns (by rw [hr.pc, hpc]; rfl)
    exact Owns.inv ⟨hr.self, hown.2⟩ nofun nofun h'.closesOwn
  | setNewConnectionCallback hpc => exact h.of_keeps rfl rfl rfl rfl fun _ _ _ hn => hn
  | listen hpc => exact h.of_keeps rfl rfl rfl rfl fun _ _ _ hn => hn
  | handleRead hpc =>
    exact Owns.inv (h.owns (by rw [hpc]; rfl)) nofun (fun _ => ⟨ha, rfl⟩) h.closesOwn
  | accept hpc hr =>
    have h' := h.received hr
    have hreading := h'.reading (by rw [hr.pc, hpc]; rfl)
    refine Owns.inv (h'.owns (by rw [hr.pc, hpc]; rfl)) (fun n hn => ?_)
      (fun _ => ⟨hreading.1, rfl⟩) h'.closesOwn
    cases hn
    exact hr.self _ rfl
  | exhausted hpc => exact absurd rfl ha
  | fails hpc he => exact Owns.inv (h.owns (by rw [hpc]; rfl)) nofun nofun h.closesOwn
  | @handsOver connfd hpc =>
    have hown := h.owns (by rw [hpc]; rfl)
    have hconn := h.accepted _ hpc
    have hreading := h.reading (by rw [hpc]; rfl)
    -- the connection is neither the reserve nor the listening socket
    have hkeeps {n : ℕ} {o : Owner} (ho : o ≠ .accepted) (hn : s.fds n = some o) :
        Function.update s.fds connfd (some .other) n = some o := by
      refine (Function.update_of_ne ?_ _ _).trans hn
      rintro rfl
      exact ho (Option.some.inj (hn.symm.trans hconn))
    exact Owns.inv ⟨fun n hn => hkeeps nofun (hown.1 n hn), fun n hn => hkeeps nofun (hown.2 n hn)⟩
      nofun (fun _ => ⟨hreading.1, rfl⟩) h.closesOwn
  | @closes connfd t hpc hc =>
    have hown := h.owns (by rw [hpc]; rfl)
    have hconn := h.accepted _ hpc
    have hreading := h.reading (by rw [hpc]; rfl)
    have hmine {o : Owner} (ho : o ≠ .accepted) (m : ℕ) (hm : some connfd = some m) :
        s.fds m ≠ some o := by
      cases hm
      exact fun hn => ho (Option.some.inj (hn.symm.trans hconn))
    have hclosed : t.ClosesOwn := hc.closesOwn h.closesOwn (o := .accepted)
      (fun n hn => Option.some.inj hn ▸ hconn) nofun
    refine Owns.inv ⟨fun n hn => ?_, fun n hn => ?_⟩ nofun (fun _ => ⟨?_, rfl⟩) hclosed
    · exact hc.keeps n _ (hmine nofun) (hown.1 n (hc.idlefd ▸ hn))
    · exact hc.keeps n _ (hmine nofun) (hown.2 n (hc.acceptSocket ▸ hn))
    · exact fun hn => hreading.1 (hc.idlefd ▸ hn)
  | giveUp hpc => exact absurd (h.reading (by rw [hpc]; rfl)).2 (by rw [hpc]; nofun)
  | reaccept hpc => exact absurd (h.reading (by rw [hpc]; rfl)).2 (by rw [hpc]; nofun)
  | closeAgain hpc => exact absurd (h.reading (by rw [hpc]; rfl)).2 (by rw [hpc]; nofun)
  | destroy hpc hc =>
    have hown := h.owns (by rw [hpc]; rfl)
    refine ⟨nofun, fun _ n hn => ?_, nofun, nofun, hc.closesOwn h.closesOwn hown.1 nofun⟩
    refine hc.keeps n _ (fun m hm heq => ?_) (hown.2 n (hc.acceptSocket ▸ hn))
    cases (hown.1 m hm).symm.trans heq
  | closeSocket hpc hc =>
    exact ⟨nofun, nofun, nofun, nofun, hc.closesOwn h.closesOwn (h.socket hpc) nofun⟩
  | otherOpens hr => exact h.received hr
  | otherCloses hfd =>
    refine h.of_keeps rfl rfl rfl rfl fun n p hp hn => Descriptors.keeps_close (fun heq => ?_) hn
    exact hp (Option.some.inj (heq.symm.trans hfd))

/-- `handleRead` does not change `idlefd_`. -/
theorem idlefd_of_step (hs : s.step a = some s') (hread : s.pc.inHandleRead = true)
    (he : s.pc.exhausted = false) : s'.idlefd = s.idlefd := by
  cases steps_of_step hs with
  | accept hpc hr => exact hr.idlefd
  | closes hpc hc => exact hc.idlefd
  | otherOpens hr => exact hr.idlefd
  | giveUp hpc | reaccept hpc | closeAgain hpc => rw [hpc] at he; cases he
  | socket hpc | openNull hpc | destroy hpc | closeSocket hpc => rw [hpc] at hread; cases hread
  | _ => rfl

/-- What the invariant means around an action. -/
theorem Inv.serves (h : s.Inv) (ha : s.Allowed a) (hs : s.step a = some s') : s.Serves a s' := by
  have h' := h.step ha hs
  refine ⟨fun hread hout => ?_, h'.closesOwn⟩
  obtain ⟨hidle, he⟩ := h.reading hread
  obtain ⟨n, hn⟩ := Option.ne_none_iff_exists'.mp hidle
  have hn' : s'.idlefd = some n := (idlefd_of_step hs hread he).trans hn
  exact ⟨n, hn', (h'.owns (by rw [hout]; rfl)).1 n hn'⟩

/-! ## After `EMFILE` -/

/-- A `handleRead` that will not leave a reserve. -/
def Doomed (s : Acceptor) : Prop :=
  s.pc.inHandleRead = true ∧ (s.pc.exhausted = true ∨ s.idlefd = none)

theorem doomed_of_not_allowed (ha : ¬s.Allowed a) (hs : s.step a = some s') : s'.Doomed := by
  cases steps_of_step hs with
  | handleRead hpc => exact ⟨rfl, .inr (not_not.mp ha)⟩
  | exhausted hpc => exact ⟨rfl, .inl rfl⟩
  | fails hpc he => exact absurd he ha
  | _ => exact absurd trivial ha

/-- **It ends badly**: there is nothing that would open a reserve again. -/
theorem Doomed.step (h : s.Doomed) (hserves : s.Serves a s') (hs : s.step a = some s') :
    s'.Doomed := by
  obtain ⟨hread, hd⟩ := h
  have hidle {p : AcceptorPc} (hpc : s.pc = p) (hp : p.exhausted = false) : s.idlefd = none :=
    hd.resolve_left (by rw [hpc, hp]; exact Bool.false_ne_true)
  cases steps_of_step hs with
  | socket hpc | openNull hpc | setNewConnectionCallback hpc | listen hpc | handleRead hpc
  | destroy hpc | closeSocket hpc => rw [hpc] at hread; cases hread
  | accept hpc hr => exact ⟨rfl, .inr (hr.idlefd.trans (hidle hpc rfl))⟩
  | exhausted hpc => exact ⟨rfl, .inl rfl⟩
  | fails hpc he =>
    obtain ⟨n, hn, -⟩ := hserves.1 hread rfl
    cases hn.symm.trans (hidle hpc rfl)
  | handsOver hpc => exact ⟨rfl, .inr (hidle hpc rfl)⟩
  | closes hpc hc => exact ⟨rfl, .inr (hc.idlefd.trans (hidle hpc rfl))⟩
  | giveUp hpc hc => exact ⟨rfl, .inl rfl⟩
  | reaccept hpc hr => exact ⟨rfl, .inl rfl⟩
  | closeAgain hpc hc =>
    -- the number in `idlefd_` has just been closed
    obtain ⟨n, hn, ho⟩ := hserves.1 hread rfl
    cases ho.symm.trans (hc.self n (hc.idlefd.symm.trans hn))
  | otherOpens hr =>
    rw [Doomed, hr.pc, hr.idlefd]
    exact ⟨hread, hd⟩
  | otherCloses hfd => exact ⟨hread, hd⟩

/-- **What the `Acceptor` closes.** For every run from the constructor on, with any results of the
system calls and anything that the rest of the process opens and closes in between: each
`handleRead` leaves an open reserve descriptor and no close hits somebody else's descriptor exactly
if every `handleRead` begins with a reserve and no `accept` in its loop fails with `EMFILE`. -/
theorem serves_iff {others : Finset ℕ} {as : List Action}
    (h : Runs.exec step (start others) as = some s) (hpc : s.pc.inHandleRead = false) :
    Runs.Each step Serves (start others) as ↔ Runs.Guarded step Allowed (start others) as := by
  refine ⟨fun heach => ?_, fun hg => hg.each inv_start (fun _ _ _ => Inv.step)
    fun _ _ _ => Inv.serves⟩
  have hor : Runs.Guarded step Allowed (start others) as ∨ s.Doomed :=
    Runs.guarded_or_of_each (I := fun _ => True) trivial (fun _ _ _ _ _ => trivial)
      (fun _ _ _ _ => doomed_of_not_allowed) (fun _ _ _ _ => Doomed.step) heach h
  refine hor.resolve_right fun hd => ?_
  rw [hd.1] at hpc
  cases hpc

/-- The `Acceptor` is constructed in a process without other descriptors than the first three, and
listens. -/
def listening : List Action := [.socket (some 3), .openNull (some 4), .listen]

/-- A connection is accepted and closed, for want of a callback, another `accept` fails, and the
`Acceptor` is destructed. -/
def served : List Action :=
  listening ++ [.handleRead, .accept (.ok 5), .newConnection, .accept (.error EAGAIN),
    .otherOpens 5, .destroy, .closeSocket]

/-- The theorem at work: the run meets the condition, so it closes nothing of somebody else's. -/
theorem serves_iff_served : ∃ s,
    Runs.exec step (start {0, 1, 2}) served = some s ∧
    s.closed = [(5, some .accepted), (4, some .reserve), (3, some .acceptSocket)] ∧
    Runs.Each step Serves (start {0, 1, 2}) served := by
  have hrun : (Runs.exec step (start {0, 1, 2}) served).map (fun s => (s.closed, s.pc)) =
      some ([(5, some .accepted), (4, some .reserve), (3, some .acceptSocket)], .destroyed) := by
    decide +kernel
  obtain ⟨s, hs, hobs⟩ := Option.map_eq_some_iff.mp hrun
  obtain ⟨hclosed, hpc⟩ := Prod.mk.inj hobs
  exact ⟨s, hs, hclosed, (serves_iff hs (by rw [hpc]; rfl)).mpr (by decide +kernel)⟩

/-- Two `handleRead`s that fail with `EMFILE`, in between somebody else opens a descriptor, and the
`Acceptor` is destructed. -/
def exhaustedTwice : List Action :=
  listening ++ [.handleRead, .accept (.error EMFILE), .giveUp, .reaccept (some 4), .closeAgain,
    .otherOpens 4, .handleRead, .accept (.error EMFILE), .giveUp, .reaccept none,
    .closeAgain, .destroy] ++ [.closeSocket]

/-- **The second `EMFILE` closes somebody else's descriptor.** -/
theorem not_serves_exhaustedTwice :
    (Runs.exec step (start {0, 1, 2}) exhaustedTwice).map (fun s => (s.closed, s.pc)) =
      some ([(4, some .reserve), (4, some .accepted), (4, some .other), (3, some .acceptSocket)],
        .destroyed) ∧
    ¬Runs.Each step Serves (start {0, 1, 2}) exhaustedTwice := by
  have hrun : (Runs.exec step (start {0, 1, 2}) exhaustedTwice).map (fun s => (s.closed, s.pc)) =
      some ([(4, some .reserve), (4, some .accepted), (4, some .other), (3, some .acceptSocket)],
        .destroyed) := by
    decide +kernel
  refine ⟨hrun, fun heach => ?_⟩
  obtain ⟨s, hs, hobs⟩ := Option.map_eq_some_iff.mp hrun
  obtain ⟨hclosed, -⟩ := Prod.mk.inj hobs
  rw [exhaustedTwice] at hs heach
  obtain ⟨t, ht, hlast⟩ := Runs.exec_concat_eq_some.mp hs
  have hown : s.ClosesOwn := (heach _ _ List.prefix_rfl t s ht hlast).2
  exact (hown (4, some .other) (by simp [hclosed])).2 rfl

end Acceptor

end Net

end Muduo
