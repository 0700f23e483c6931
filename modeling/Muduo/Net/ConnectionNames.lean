import Muduo.Net.ConnectionRuns
import Muduo.Net.InetAddr
import Mathlib.Data.Int.CardIntervalMod
import Mathlib.Data.List.TakeWhile

/-! # The names of the connections

`TcpServer::newConnection` gives a connection its loop and its name: the loop by turns, and the name
`"-%s#%d"` behind the name of the server, made in 64 bytes of the address of the peer and
`nextConnId_`. `connMap_` is keyed by the names. A `NamedServer` is a `World` with the map that the
code keeps.

* **`World.loop_by_turns`**: in every run the connections are given to the loops by turns, so that two
  loops never differ by more than one connection;
* **`NamedServer.connMap_refines`**: no name is cut off or given twice, so that the map keyed by the
  names has the connections that the `World` has. -/

namespace Muduo

namespace Net

open Function (update)

namespace World

variable {w w' w'' : World}

/-! ## What a step leaves alone -/

/-- The server is as it was, and the connections that are there have the loops that they had. -/
structure Keeps (w w' : World) : Prop where
  numThreads : w'.numThreads = w.numThreads
  next : w'.next = w.next
  nextConnId : w'.nextConnId = w.nextConnId
  connMap : w'.connMap = w.connMap
  loop : ∀ c k', w'.conns c = some k' → ∃ k, w.conns c = some k ∧ k.loop = k'.loop

namespace Keeps

theorem of_eq (hnum : w'.numThreads = w.numThreads) (hnext : w'.next = w.next)
    (hid : w'.nextConnId = w.nextConnId) (hmap : w'.connMap = w.connMap)
    (hconns : w'.conns = w.conns) : Keeps w w' := by
  refine ⟨hnum, hnext, hid, hmap, fun c k hk => ⟨k, ?_, rfl⟩⟩
  rw [← hconns]
  exact hk

theorem refl (w : World) : Keeps w w := of_eq rfl rfl rfl rfl rfl

theorem trans (h : Keeps w w') (h' : Keeps w' w'') : Keeps w w'' := by
  refine ⟨h'.numThreads.trans h.numThreads, h'.next.trans h.next,
    h'.nextConnId.trans h.nextConnId, h'.connMap.trans h.connMap, fun c k'' hk'' => ?_⟩
  obtain ⟨k', hk', hl'⟩ := h'.loop c k'' hk''
  obtain ⟨k, hk, hl⟩ := h.loop c k' hk'
  exact ⟨k, hk, hl.trans hl'⟩

theorem note (w : World) (c : ℕ) (e : Event) : Keeps w (w.note c e) := of_eq rfl rfl rfl rfl rfl

theorem queueInLoop (w : World) (l : ℕ) (f : Functor) : Keeps w (w.queueInLoop l f) :=
  of_eq rfl rfl rfl rfl rfl

theorem setPc (w : World) (l : ℕ) (p : Pc) : Keeps w (w.setPc l p) := of_eq rfl rfl rfl rfl rfl

theorem setChannel (w : World) (l fd : ℕ) (x : Option ℕ) : Keeps w (w.setChannel l fd x) :=
  of_eq rfl rfl rfl rfl rfl

/-- A connection gets new members, and stays in its loop. -/
theorem setConn {c : ℕ} {k : Connection} (hk : ∃ k₀, w.conns c = some k₀ ∧ k₀.loop = k.loop) :
    Keeps w (w.setConn c k) := by
  refine ⟨rfl, rfl, rfl, rfl, fun d k' hk' => ?_⟩
  by_cases hd : d = c
  · subst hd
    have hself : (w.setConn d k).conns d = some k := Function.update_self _ _ _
    cases hself.symm.trans hk'
    exact hk
  · have hother : (w.setConn c k).conns d = w.conns d := Function.update_of_ne hd _ _
    exact ⟨k', hother.symm.trans hk', rfl⟩

theorem updateChannel {c : ℕ} {k : Connection} (hk : ∃ k₀, w.conns c = some k₀ ∧ k₀.loop = k.loop) :
    Keeps w (w.updateChannel c k) := by
  rw [World.updateChannel]
  cases k.channel.index with
  | kNew => exact (setChannel w _ _ _).trans (setConn hk)
  | kDeleted => exact setConn hk
  | kAdded =>
    refine setConn ?_
    split_ifs <;> exact hk

theorem removeChannel {c : ℕ} {k : Connection} (hk : ∃ k₀, w.conns c = some k₀ ∧ k₀.loop = k.loop) :
    Keeps w (w.removeChannel c k) :=
  ((note w c _).trans (setChannel _ _ _ _)).trans (setConn hk)

theorem disconnect {c : ℕ} {k : Connection} (hk : ∃ k₀, w.conns c = some k₀ ∧ k₀.loop = k.loop) :
    Keeps w (w.disconnect c k) :=
  (note w c _).trans (updateChannel hk)

theorem connectEstablished (w : World) (c : ℕ) : Keeps w (w.connectEstablished c) := by
  rw [World.connectEstablished]
  cases hk : w.conns c with
  | none => exact note w c _
  | some k => exact ((note w c _).trans (note _ c _)).trans (updateChannel ⟨k, hk, rfl⟩)

theorem connectDestroyed {c : ℕ} {k : Connection}
    (hk : ∃ k₀, w.conns c = some k₀ ∧ k₀.loop = k.loop) : Keeps w (w.connectDestroyed c k) := by
  simp only [World.connectDestroyed]
  split_ifs
  · exact (note w c _).trans (setPc _ _ _)
  · exact (note w c _).trans (removeChannel hk)

end Keeps

/-- The connection whose entry in `connMap_` the step erases. -/
def erased (w : World) : Action → Option ℕ
  | .runFunctor l =>
    match w.queue l with
    | .removeConnectionInLoop c :: _ => if w.server = .alive then some c else none
    | _ => none
  | .closeCallback c => (w.conns c).bind fun k =>
    if w.server = .alive ∧ k.loop = 0 then some c else none
  | .destructNext c => some c
  | _ => none

/-- The server without the entry of `x` in `connMap_`. -/
def eraseConn (w : World) (x : Option ℕ) : World :=
  { w with connMap := x.elim w.connMap w.connMap.erase }

theorem keeps_removeConnectionInLoop (w : World) (c : ℕ) (k : Connection) :
    Keeps (w.eraseConn (if w.server = .alive then some c else none))
      (w.removeConnectionInLoop c k) := by
  have hnote : (w.note c (.removeConnection (w.server == .alive))).server = w.server := rfl
  simp only [World.removeConnectionInLoop, hnote]
  by_cases hs : w.server = .alive
  · rw [if_pos hs, if_pos hs]
    exact Keeps.of_eq rfl rfl rfl rfl rfl
  · rw [if_neg hs, if_neg hs]
    exact Keeps.of_eq rfl rfl rfl rfl rfl

theorem keeps_removeConnection (w : World) (c : ℕ) (k : Connection) :
    Keeps (w.eraseConn (if w.server = .alive ∧ k.loop = 0 then some c else none))
      (w.removeConnection c k) := by
  have hnote : (w.note c (.removeConnection (w.server != .gone))).server = w.server := rfl
  simp only [World.removeConnection, hnote]
  by_cases hl : k.loop = 0
  · by_cases hs : w.server = .gone
    · have halive : ¬(w.server = .alive ∧ k.loop = 0) := by
        rintro ⟨ha, -⟩
        cases hs.symm.trans ha
      rw [if_pos hs, if_neg halive]
      exact Keeps.of_eq rfl rfl rfl rfl rfl
    · rw [if_neg hs, if_pos hl]
      have hkeeps := keeps_removeConnectionInLoop
        (w.note c (.removeConnection (w.server != .gone))) c k
      rw [hnote] at hkeeps
      simp only [hl, and_true]
      refine Keeps.trans ?_ hkeeps
      exact Keeps.of_eq rfl rfl rfl rfl rfl
  · rw [if_neg (fun hand => hl hand.2)]
    split_ifs
    · exact Keeps.of_eq rfl rfl rfl rfl rfl
    · exact Keeps.of_eq rfl rfl rfl rfl rfl

theorem keeps_runFunctor {l : ℕ} {f : Functor} {rest : List Functor} (hq : w.queue l = f :: rest)
    (hw : ({ w with queue := update w.queue l rest } : World).runFunctor f = some w') :
    Keeps (w.eraseConn (w.erased (.runFunctor l))) w' := by
  have hpop : Keeps (w.eraseConn none) { w with queue := update w.queue l rest } :=
    Keeps.of_eq rfl rfl rfl rfl rfl
  cases f with
  | connectEstablished c =>
    rw [erased, hq]
    cases hw
    exact hpop.trans (.connectEstablished _ c)
  | shutdownInLoop c =>
    rw [erased, hq]
    cases hw
    exact hpop
  | removeConnectionInLoop c =>
    rw [erased, hq]
    obtain ⟨k, -, rfl⟩ := Option.map_eq_some_iff.mp hw
    refine Keeps.trans ?_ (keeps_removeConnectionInLoop _ c k)
    exact Keeps.of_eq rfl rfl rfl rfl rfl
  | connectDestroyed c =>
    rw [erased, hq]
    obtain ⟨k, hk, rfl⟩ := Option.map_eq_some_iff.mp hw
    exact hpop.trans (.connectDestroyed ⟨k, hk, rfl⟩)

/-- **What a step does to `connMap_` and to the loops.** No step but `newConnection` gives a
connection a loop, and at most one entry of `connMap_` is erased. -/
theorem Steps.keeps {a : Action} (h : w.Steps a w') (ha : ∀ sockfd, a ≠ .newConnection sockfd) :
    Keeps (w.eraseConn (w.erased a)) w' := by
  have hsame {x : World} (hkeeps : Keeps w x) : Keeps (w.eraseConn none) x :=
    Keeps.trans (Keeps.of_eq rfl rfl rfl rfl rfl) hkeeps
  cases h with
  | newConnection => exact absurd rfl (ha _)
  | runFunctor hq hfree hw => exact keeps_runFunctor hq hw
  | handleClose hk =>
    exact hsame ((Keeps.disconnect ⟨_, hk, rfl⟩).trans (.setPc _ _ _))
  | @closeCallback c k hk =>
    have herased : w.erased (.closeCallback c) =
        if w.server = .alive ∧ k.loop = 0 then some c else none := by
      rw [erased, hk]
      rfl
    rw [herased]
    refine Keeps.trans ?_ (keeps_removeConnection (w.setPc k.loop .idle) c k)
    exact Keeps.of_eq rfl rfl rfl rfl rfl
  | @connectDestroyed c k k' hk hpc hk' =>
    have hidle : Keeps w (w.setPc k.loop .idle) := .setPc _ _ _
    exact hsame ((hidle.trans (.disconnect ⟨k, hk, rfl⟩)).trans (.removeChannel ⟨k', hk', rfl⟩))
  | shutdown => exact Keeps.of_eq rfl rfl rfl rfl rfl
  | shutdownNot => exact Keeps.of_eq rfl rfl rfl rfl rfl
  | @shutdownWrite c inLoop k hk hc =>
    have hnote : Keeps w (({ w with shutdowns := w.shutdowns.erase c } : World).note c
        (.wrote k.state .kDisConnecting)) := Keeps.of_eq rfl rfl rfl rfl rfl
    have hset : Keeps w ((({ w with shutdowns := w.shutdowns.erase c } : World).note c
        (.wrote k.state .kDisConnecting)).setConn c (k.setState .kDisConnecting)) :=
      hnote.trans (.setConn ⟨k, hk, rfl⟩)
    cases inLoop with
    | true => exact hsame hset
    | false => exact hsame (hset.trans (.queueInLoop _ _ _))
  | destructServer => exact Keeps.of_eq rfl rfl rfl rfl rfl
  | @destructNext c k hk =>
    have herase : Keeps (w.eraseConn (some c)) { w with connMap := w.connMap.erase c } :=
      Keeps.of_eq rfl rfl rfl rfl rfl
    have hnext : Keeps { w with connMap := w.connMap.erase c } (w.destructNext c k) := by
      simp only [World.destructNext]
      split_ifs
      · exact .connectDestroyed ⟨k, hk, rfl⟩
      · exact .queueInLoop _ _ _
    exact herase.trans hnext
  | destructEnd => exact Keeps.of_eq rfl rfl rfl rfl rfl
  | hold => exact Keeps.of_eq rfl rfl rfl rfl rfl
  | release => exact Keeps.of_eq rfl rfl rfl rfl rfl
  | @destruct c k hk =>
    refine ⟨rfl, rfl, rfl, rfl, fun d k' hk' => ?_⟩
    have hd : d ≠ c := by
      rintro rfl
      have hnone : update w.conns d none d = none := Function.update_self _ _ _
      cases hnone.symm.trans hk'
    have hother : update w.conns c none d = w.conns d := Function.update_of_ne hd _ _
    exact ⟨k', hother.symm.trans hk', rfl⟩

theorem keeps_newConnection (w : World) (sockfd : ℕ) :
    Keeps (w.accepted sockfd) (w.newConnection sockfd) := by
  rw [newConnection_eq]
  split_ifs
  · exact .connectEstablished _ _
  · exact .queueInLoop _ _ _

theorem keeps_of_newConnection {sockfd : ℕ} (h : w.step (.newConnection sockfd) = some w') :
    Keeps (w.accepted sockfd) w' := by
  cases steps_of_step h
  exact keeps_newConnection w sockfd

theorem keeps_of_other {a : Action} (h : w.step a = some w')
    (ha : ∀ sockfd, a ≠ .newConnection sockfd) : Keeps (w.eraseConn (w.erased a)) w' :=
  (steps_of_step h).keeps ha

/-! ## The loops -/

/-- The loop of the connection `c`, with `n` I/O loops: the base loop, or one of the others by
turns. -/
def turn (n c : ℕ) : ℕ := if n = 0 then 0 else (c - 1) % n + 1

/-- How many of the first `m` connections are given to the loop `l`. -/
def load (n m l : ℕ) : ℕ := Nat.count (fun c => turn n (c + 1) = l) m

/-- Every connection has the loop whose turn it was. -/
structure Turns (n : ℕ) (w : World) : Prop where
  numThreads : w.numThreads = n
  pos : 0 < w.nextConnId
  next : n ≠ 0 → w.next = (w.nextConnId - 1) % n
  loop : ∀ c k, w.conns c = some k → k.loop = turn n c

variable {n : ℕ}

theorem Turns.keeps (h : w.Turns n) (hk : Keeps w w') : w'.Turns n where
  numThreads := hk.numThreads.trans h.numThreads
  pos := hk.nextConnId.symm ▸ h.pos
  next := fun hn => by
    rw [hk.next, hk.nextConnId]
    exact h.next hn
  loop := fun c k' hk' => by
    obtain ⟨k, hk, hl⟩ := hk.loop c k' hk'
    exact hl.symm.trans (h.loop c k hk)

/-- The next one in turn. -/
theorem succ_mod {m n : ℕ} (hn : n ≠ 0) :
    (m + 1) % n = if m % n + 1 ≥ n then 0 else m % n + 1 := by
  have hlt : m % n < n := Nat.mod_lt m (Nat.pos_of_ne_zero hn)
  rw [← Nat.mod_add_mod m n 1]
  split_ifs with hge
  · rw [show m % n + 1 = n by omega, Nat.mod_self]
  · exact Nat.mod_eq_of_lt (not_le.mp hge)

/-- **A new connection is given to the loop whose turn it is.** -/
theorem Turns.accepted (h : w.Turns n) (sockfd : ℕ) : (w.accepted sockfd).Turns n := by
  have hnum := h.numThreads
  subst hnum
  have hloop : w.getNextLoop.1 = turn w.numThreads w.nextConnId := by
    rw [getNextLoop, turn]
    by_cases hn : w.numThreads = 0
    · rw [if_pos hn, if_pos hn]
    · rw [if_neg hn, if_neg hn, h.next hn]
  refine ⟨rfl, Nat.succ_pos _, fun hn => ?_, fun c k hk => ?_⟩
  · show w.getNextLoop.2 = (w.nextConnId + 1 - 1) % w.numThreads
    have hid : w.nextConnId + 1 - 1 = w.nextConnId - 1 + 1 := by
      have := h.pos
      omega
    rw [getNextLoop, if_neg hn, hid, succ_mod hn, ← h.next hn]
  · by_cases hc : c = w.nextConnId
    · subst hc
      have hself : (w.accepted sockfd).conns w.nextConnId =
          some ⟨w.getNextLoop.1, .kConnecting, ⟨sockfd, Channel.kNoneEvent, .kNew⟩⟩ :=
        Function.update_self _ _ _
      cases hself.symm.trans hk
      exact hloop
    · have hother : (w.accepted sockfd).conns c = w.conns c := Function.update_of_ne hc _ _
      exact h.loop c k (hother.symm.trans hk)

theorem Turns.of_step {a : Action} (h : w.Turns n) (hs : w.step a = some w') : w'.Turns n := by
  by_cases ha : ∃ sockfd, a = .newConnection sockfd
  · obtain ⟨sockfd, rfl⟩ := ha
    exact (h.accepted sockfd).keeps (keeps_of_newConnection hs)
  · have herase : (w.eraseConn (w.erased a)).Turns n := ⟨h.numThreads, h.pos, h.next, h.loop⟩
    exact herase.keeps (keeps_of_other hs fun sockfd heq => ha ⟨sockfd, heq⟩)

/-- Of `m` connections in turn, every loop has its share. -/
theorem load_eq {n m l : ℕ} (hl : 1 ≤ l) (hn : l ≤ n) :
    load n m l = m / n + if l - 1 < m % n then 1 else 0 := by
  have hpos : 0 < n := hl.trans hn
  have hturn : ∀ c, turn n (c + 1) = l ↔ c ≡ l - 1 [MOD n] := by
    intro c
    rw [turn, if_neg hpos.ne', Nat.add_sub_cancel, Nat.ModEq, Nat.mod_eq_of_lt (by omega : l - 1 < n)]
    omega
  have hcount := Nat.count_modEq_card m hpos (l - 1)
  rw [Nat.mod_eq_of_lt (by omega : l - 1 < n)] at hcount
  rw [load, ← hcount]
  simp only [hturn]

/-- **The connections are given to the loops by turns.** In every run of a server with `n` I/O loops,
whatever happens to the connections: a connection is in the loop whose turn it was, which never
changes, and each of the `n` loops has been given its share of all connections, so that two of them
never differ by more than one. -/
theorem loop_by_turns {as : List Action} (h : Runs.exec step (new n) as = some w) :
    (∀ c k, w.conns c = some k → k.loop = turn n c) ∧
    ∀ l, 1 ≤ l → l ≤ n → (w.nextConnId - 1) / n ≤ load n (w.nextConnId - 1) l ∧
      load n (w.nextConnId - 1) l ≤ (w.nextConnId - 1) / n + 1 := by
  have hnew : (new n).Turns n := ⟨rfl, Nat.one_pos, fun _ => (Nat.zero_mod n).symm, fun c k hk => by
    cases hk⟩
  refine ⟨(Runs.exec_induction hnew (fun _ _ _ ht hs => Turns.of_step ht hs) h).loop, ?_⟩
  intro l hl hn
  rw [load_eq hl hn]
  split_ifs <;> omega

/-- Three connections and two loops. -/
theorem loop_by_turns_three :
    ∃ w, Runs.exec step (new 2) [.newConnection 7, .runFunctor 1, .newConnection 8,
        .newConnection 9] = some w ∧
      (∀ c k, w.conns c = some k → k.loop = turn 2 c) ∧
      ∀ l, 1 ≤ l → l ≤ 2 → (w.nextConnId - 1) / 2 ≤ load 2 (w.nextConnId - 1) l ∧
        load 2 (w.nextConnId - 1) l ≤ (w.nextConnId - 1) / 2 + 1 := by
  have hsome : (Runs.exec step (new 2) [.newConnection 7, .runFunctor 1, .newConnection 8,
      .newConnection 9]).isSome = true := by
    decide +kernel
  obtain ⟨w, hw⟩ := Option.isSome_iff_exists.mp hsome
  exact ⟨w, hw, loop_by_turns hw⟩

end World

/-! ## The names -/

/-- `'#'`. -/
def HASH : UInt8 := 35

/-- The `TcpServer` with the keys of `connMap_`. -/
structure NamedServer where
  /-- The loops and the connections. -/
  world : World
  /-- `name_` of the server. -/
  serverName : Bytes
  /-- `connMap_`. An entry without a pointer is `none`. -/
  connMap : Bytes → Option ℕ
  /-- `name_` of each connection. -/
  name : ℕ → Bytes
  /-- `peerAddr_` of each connection. -/
  peerAddr : ℕ → InetAddr

namespace NamedServer

/-- A server without connections. -/
def new (serverName : Bytes) (numThreads : ℕ) : NamedServer where
  world := .new numThreads
  serverName := serverName
  connMap := fun _ => none
  name := fun _ => []
  peerAddr := fun _ => ⟨fun _ => 0⟩

/-- `snprintf(buf, sizeof buf, "-%s#%d", addr.IpPort().c_str(), nextConnId_)`, in 64 bytes. -/
def buf (text : AddressText) (addr : InetAddr) (nextConnId : ℕ) : Bytes :=
  (ascii "-" ++ c_str (addr.ipPort text) ++ [HASH] ++ ascii (toString (nextConnId : ℤ))).take 63

/-- What can happen. -/
inductive Action
  /-- `newConnection(sockfd, addr)`. -/
  | newConnection (sockfd : ℕ) (addr : InetAddr)
  /-- Anything else. -/
  | other (a : World.Action)

/-- What it is without the address. -/
def Action.toWorld : Action → World.Action
  | .newConnection sockfd _ => .newConnection sockfd
  | .other a => a

/-- `a` is `newConnection`. -/
def isNewConnection : World.Action → Bool
  | .newConnection _ => true
  | _ => false

/-- `connMap_.erase(conn->name())`. -/
def erase (s : NamedServer) (c : ℕ) : Bytes → Option ℕ := update s.connMap (s.name c) none

/-- `item.second.reset()` in `~TcpServer`, for the item of `c`. -/
def reset (s : NamedServer) (c : ℕ) : Bytes → Option ℕ :=
  fun key => if s.connMap key = some c then none else s.connMap key

/-- What is left of `connMap_` after `a`. -/
def connMapAfter (s : NamedServer) (a : World.Action) : Bytes → Option ℕ :=
  match s.world.erased a with
  | none => s.connMap
  | some c =>
    match a with
    | .destructNext _ => s.reset c
    | _ => s.erase c

/-- One action, as long as `nextConnId_`, an `int`, can be counted up. -/
def step (text : AddressText) (s : NamedServer) : Action → Option NamedServer
  | .newConnection sockfd addr =>
    if s.world.nextConnId + 1 < 2147483648 then
      let c := s.world.nextConnId
      let name := s.serverName ++ buf text addr c
      (s.world.step (.newConnection sockfd)).map fun w =>
        { s with
          world := w
          connMap := update s.connMap name (some c)
          name := update s.name c name
          peerAddr := update s.peerAddr c addr }
    else none
  | .other a =>
    if isNewConnection a then none
    else (s.world.step a).map fun w =>
      { s with
        world := w
        connMap := s.connMapAfter a }

/-! ## A name is whole -/

/-- What `inet_ntop` is relied on for: `INET_ADDRSTRLEN` and `INET6_ADDRSTRLEN` are 16 and 46 with
the NUL, and no text of an address has a `#`. -/
structure Documented (text : AddressText) : Prop where
  length_le : ∀ {ipv6 addr}, addr.length = (if ipv6 then 16 else 4) →
    (text.inet_ntop ipv6 addr).length ≤ if ipv6 then 45 else 15
  ne_zero : ∀ {ipv6 addr}, addr.length = (if ipv6 then 16 else 4) →
    ∀ c ∈ text.inet_ntop ipv6 addr, c ≠ 0
  ne_hash : ∀ {ipv6 addr}, addr.length = (if ipv6 then 16 else 4) →
    ∀ c ∈ text.inet_ntop ipv6 addr, c ≠ HASH

variable {text : AddressText}

/-- The text of an address has at most 45 characters, for any family. -/
theorem Documented.ip (h : Documented text) (a : InetAddr) :
    (a.ip text).length ≤ 45 ∧ ∀ c ∈ a.ip text, c ≠ 0 ∧ c ≠ HASH := by
  have hlen4 := Layout.length_read a.bytes InetAddr.sin_addr
  have hlen16 := Layout.length_read a.bytes InetAddr.sin6_addr
  rw [InetAddr.ip]
  split_ifs
  · refine ⟨(h.length_le hlen4).trans (by decide), fun c hc => ?_⟩
    exact ⟨h.ne_zero hlen4 c hc, h.ne_hash hlen4 c hc⟩
  · refine ⟨h.length_le hlen16, fun c hc => ?_⟩
    exact ⟨h.ne_zero hlen16 c hc, h.ne_hash hlen16 c hc⟩
  · refine ⟨Nat.zero_le _, fun c hc => ?_⟩
    cases hc

theorem ne_of_isdigit {c : UInt8} (h : isdigit c = true) : c ≠ 0 ∧ c ≠ HASH := by
  constructor <;>
  · rintro rfl
    exact absurd h (by decide)

/-- The text with the port has at most 51. -/
theorem Documented.ipPort (h : Documented text) (a : InetAddr) :
    (a.ipPort text).length ≤ 51 ∧ ∀ c ∈ a.ipPort text, c ≠ 0 ∧ c ≠ HASH := by
  obtain ⟨hlen, hmem⟩ := h.ip a
  have hport : (ascii (toString (a.port.toNat : ℤ))).length ≤ 5 :=
    (length_toString_le_iff (by omega)).mpr (a.port.toNat_lt.trans (by decide))
  constructor
  · rw [InetAddr.ipPort, List.length_append, List.length_append, List.length_singleton]
    omega
  · intro c hc
    rw [InetAddr.ipPort, List.mem_append, List.mem_append, List.mem_singleton] at hc
    rcases hc with (hip | rfl) | hdigit
    · exact hmem c hip
    · decide
    · exact ne_of_isdigit (isdigit_of_mem_toString hdigit)

/-- **Nothing is cut off**: 64 bytes are exactly enough for the longest address, port and number. -/
theorem buf_eq (h : Documented text) (a : InetAddr) {c : ℕ} (hc : c < 2147483648) :
    buf text a c = ascii "-" ++ a.ipPort text ++ [HASH] ++ ascii (toString (c : ℤ)) := by
  obtain ⟨hlen, hmem⟩ := h.ipPort a
  have hwhole : c_str (a.ipPort text) = a.ipPort text := by
    rw [c_str, List.takeWhile_eq_self_iff]
    exact fun x hx => by simpa using (hmem x hx).1
  have hdigits : (ascii (toString (c : ℤ))).length ≤ 10 :=
    (length_toString_le_iff (by omega)).mpr (hc.trans (by decide))
  have hdash : (ascii "-").length = 1 := rfl
  rw [buf, hwhole, List.take_of_length_le]
  rw [List.length_append, List.length_append, List.length_append, List.length_singleton]
  omega

/-- The number can be read off from the name. -/
theorem buf_inj (h : Documented text) {a b : InetAddr} {c d : ℕ} (hc : c < 2147483648)
    (hd : d < 2147483648) (heq : buf text a c = buf text b d) : c = d := by
  rw [buf_eq h a hc, buf_eq h b hd, List.append_assoc, List.append_assoc, List.append_assoc,
    List.append_assoc, List.append_cancel_left_eq, List.singleton_append, List.singleton_append]
    at heq
  -- the only `#` stands before the number
  have haddr : HASH ∉ a.ipPort text := fun hmem => ((h.ipPort a).2 _ hmem).2 rfl
  have hdigits : HASH ∉ ascii (toString (c : ℤ)) := fun hmem =>
    (ne_of_isdigit (isdigit_of_mem_toString hmem)).2 rfl
  obtain ⟨-, -, hnum⟩ := (List.append_cons_inj_of_notMem haddr hdigits).mp heq
  rw [← decimal_toString c, hnum, decimal_toString]

/-! ## A conversion that is as documented -/

/-- Two letters for a byte. -/
def letters (b : UInt8) : Bytes :=
  [UInt8.ofNat (65 + b.toNat / 16), UInt8.ofNat (65 + b.toNat % 16)]

/-- The bytes that letters stand for. -/
def ofLetters : Bytes → Bytes
  | high :: low :: s => UInt8.ofNat ((high.toNat - 65) * 16 + (low.toNat - 65)) :: ofLetters s
  | _ => []

theorem toNat_of_mem_letters {b c : UInt8} (h : c ∈ letters b) : 65 ≤ c.toNat := by
  have := b.toNat_lt
  rw [letters, List.mem_cons, List.mem_singleton] at h
  rcases h with rfl | rfl <;>
  · rw [UInt8.toNat_ofNat']
    omega

theorem ofLetters_flatMap (addr : Bytes) : ofLetters (addr.flatMap letters) = addr := by
  induction addr with
  | nil => rfl
  | cons b addr ih =>
    rw [List.flatMap_cons, letters, List.cons_append, List.cons_append, List.nil_append, ofLetters,
      ih]
    congr 1
    have := b.toNat_lt
    rw [← UInt8.toNat_inj, UInt8.toNat_ofNat', UInt8.toNat_ofNat', UInt8.toNat_ofNat']
    omega

theorem length_ofLetters (s : Bytes) : (ofLetters s).length = s.length / 2 := by
  fun_induction ofLetters s with
  | case1 high low s ih =>
    rw [List.length_cons, ih, List.length_cons, List.length_cons]
    omega
  | case2 s hs =>
    rcases s with _ | ⟨a, _ | ⟨b, s⟩⟩
    · rfl
    · exact (Nat.div_eq_of_lt (Nat.lt_succ_self 1)).symm
    · exact absurd rfl (hs a b s)

theorem length_flatMap_letters (addr : Bytes) : (addr.flatMap letters).length = 2 * addr.length := by
  induction addr with
  | nil => rfl
  | cons b addr ih =>
    rw [List.flatMap_cons, List.length_append, ih, List.length_cons]
    show 2 + _ = _
    omega

theorem flatMap_letters_ne {ipv6 : Bool} {addr : Bytes}
    (h : addr.length = if ipv6 then 16 else 4) :
    addr.flatMap letters ≠ InetAddr.loopbackName ipv6 := by
  intro heq
  have hlen := congrArg List.length heq
  rw [length_flatMap_letters, h] at hlen
  cases ipv6 <;> exact absurd hlen (by decide)

/-- Conversions that know the loopback addresses; any other address is written in letters. -/
def letterText : AddressText where
  inet_pton ipv6 text :=
    if text = InetAddr.loopbackName ipv6 then some (InetAddr.localAddress true ipv6)
    else if text.length = 2 * (if ipv6 then 16 else 4) then some (ofLetters text)
    else none
  inet_ntop ipv6 addr :=
    if addr = InetAddr.localAddress true ipv6 then InetAddr.loopbackName ipv6
    else addr.flatMap letters
  length_inet_pton := by
    intro ipv6 text addr h
    by_cases hname : text = InetAddr.loopbackName ipv6
    · rw [if_pos hname] at h
      cases h
      exact InetAddr.length_localAddress
    · rw [if_neg hname, Option.ite_none_right_eq_some] at h
      obtain ⟨hlen, heq⟩ := h
      cases heq
      rw [length_ofLetters, hlen, Nat.mul_div_cancel_left _ Nat.two_pos]
  inet_pton_inet_ntop := by
    intro ipv6 addr h
    by_cases hloop : addr = InetAddr.localAddress true ipv6
    · rw [if_pos hloop, if_pos rfl, hloop]
    · rw [if_neg hloop, if_neg (flatMap_letters_ne h), length_flatMap_letters, h, if_pos rfl,
        ofLetters_flatMap]

theorem inet_ntop_letterText (ipv6 : Bool) (addr : Bytes) : letterText.inet_ntop ipv6 addr =
    if addr = InetAddr.localAddress true ipv6 then InetAddr.loopbackName ipv6
    else addr.flatMap letters :=
  rfl

theorem documented_letterText : Documented letterText := by
  have hmem : ∀ {ipv6 : Bool} {addr : Bytes} {c : UInt8}, c ∈ letterText.inet_ntop ipv6 addr →
      c ≠ 0 ∧ c ≠ HASH := by
    intro ipv6 addr c hc
    by_cases hloop : addr = InetAddr.localAddress true ipv6
    · have hall : (InetAddr.loopbackName ipv6).all (fun c => c != 0 && c != HASH) = true := by
        cases ipv6 <;> decide
      rw [inet_ntop_letterText, if_pos hloop] at hc
      simpa using List.all_eq_true.mp hall c hc
    · rw [inet_ntop_letterText, if_neg hloop, List.mem_flatMap] at hc
      obtain ⟨b, -, hb⟩ := hc
      have hle := toNat_of_mem_letters hb
      constructor <;>
      · rintro rfl
        exact absurd hle (by decide)
  refine ⟨fun {ipv6 addr} h => ?_, fun _ c hc => (hmem hc).1, fun _ c hc => (hmem hc).2⟩
  by_cases hloop : addr = InetAddr.localAddress true ipv6
  · rw [inet_ntop_letterText, if_pos hloop]
    cases ipv6 <;> decide
  · rw [inet_ntop_letterText, if_neg hloop, length_flatMap_letters, h]
    cases ipv6 <;> decide

/-- The loopback address. -/
def loopback (port : UInt16) : InetAddr := InetAddr.ofPort (fun _ => 0) port true false

/-! ## The map -/

variable {serverName : Bytes} {n : ℕ} {s s' : NamedServer}

/-- `c` has been accepted. -/
def Given (s : NamedServer) (c : ℕ) : Prop := 1 ≤ c ∧ c < s.world.nextConnId

/-- The keys of `connMap_` are the names of the connections that the server has. -/
structure Named (text : AddressText) (serverName : Bytes) (s : NamedServer) : Prop where
  serverName_eq : s.serverName = serverName
  bound : s.world.nextConnId < 2147483648
  pos : 1 ≤ s.world.nextConnId
  name : ∀ c, s.Given c → s.name c = serverName ++ buf text (s.peerAddr c) c
  noName : ∀ c, ¬s.Given c → s.name c = []
  given : ∀ c ∈ s.world.connMap, s.Given c
  nodup : s.world.connMap.Nodup
  connMap : ∀ key c, s.connMap key = some c ↔ c ∈ s.world.connMap ∧ s.name c = key

/-- Different connections have different names. -/
theorem Named.name_inj (h : s.Named text serverName) (htext : Documented text) {c d : ℕ}
    (hd : s.Given d) (heq : s.name c = s.name d) : c = d := by
  by_cases hc : s.Given c
  · rw [h.name c hc, h.name d hd, List.append_cancel_left_eq] at heq
    exact buf_inj htext (hc.2.trans h.bound) (hd.2.trans h.bound) heq
  · rw [h.noName c hc, h.name d hd, buf_eq htext _ (hd.2.trans h.bound)] at heq
    simp at heq

/-- The new connection has a name that no connection has had. -/
theorem Named.newConnection (h : s.Named text serverName) (htext : Documented text) {sockfd : ℕ}
    {addr : InetAddr} (hs : s.step text (.newConnection sockfd addr) = some s') :
    s'.Named text serverName := by
  simp only [step, Option.ite_none_right_eq_some] at hs
  obtain ⟨hbound, hs⟩ := hs
  obtain ⟨w, hw, rfl⟩ := Option.map_eq_some_iff.mp hs
  have hid : w.nextConnId = s.world.nextConnId + 1 := (World.keeps_of_newConnection hw).nextConnId
  have hmap : w.connMap = s.world.connMap ++ [s.world.nextConnId] :=
    (World.keeps_of_newConnection hw).connMap
  have hlt : ∀ c, s.Given c → c ≠ s.world.nextConnId := fun c hc => hc.2.ne
  have hold : ∀ {name} c, s.Given c → update s.name s.world.nextConnId name c = s.name c :=
    fun c hc => Function.update_of_ne (hlt c hc) _ _
  have hfresh : ∀ c, s.Given c →
      s.name c ≠ s.serverName ++ buf text addr s.world.nextConnId := by
    intro c hc heq
    rw [h.name c hc, h.serverName_eq, List.append_cancel_left_eq] at heq
    exact hlt c hc (buf_inj htext (hc.2.trans h.bound) h.bound heq)
  have hgiven : ∀ c, c < w.nextConnId → 1 ≤ c → s.Given c ∨ c = s.world.nextConnId := by
    intro c hc hpos
    rw [hid, Nat.lt_succ_iff_lt_or_eq] at hc
    exact hc.imp_left fun hlt => ⟨hpos, hlt⟩
  refine ⟨h.serverName_eq, ?_, ?_, ?_, ?_, ?_, ?_, ?_⟩
  · show w.nextConnId < 2147483648
    rwa [hid]
  · show 1 ≤ w.nextConnId
    omega
  · rintro c ⟨hpos, hc⟩
    show update s.name _ _ c = serverName ++ buf text (update s.peerAddr _ _ c) c
    rcases hgiven c hc hpos with hc | rfl
    · rw [hold c hc, h.name c hc, Function.update_of_ne (hlt c hc)]
    · rw [Function.update_self, Function.update_self, h.serverName_eq]
  · intro c hc
    have hc : ¬(1 ≤ c ∧ c < w.nextConnId) := hc
    have hpos := h.pos
    have hne : c ≠ s.world.nextConnId := by omega
    have hnot : ¬s.Given c := by
      rw [Given]
      omega
    exact (Function.update_of_ne hne _ _).trans (h.noName c hnot)
  · intro c hc
    have hc : c ∈ s.world.connMap ++ [s.world.nextConnId] := hmap ▸ hc
    rw [List.mem_append, List.mem_singleton] at hc
    show 1 ≤ c ∧ c < w.nextConnId
    rcases hc with hc | rfl
    · have := h.given c hc
      rw [Given] at this
      omega
    · have := h.pos
      omega
  · show w.connMap.Nodup
    rw [hmap, ← List.concat_eq_append]
    exact h.nodup.concat fun hmem => hlt _ (h.given _ hmem) rfl
  · intro key c
    show update s.connMap _ _ key = some c ↔ c ∈ w.connMap ∧ update s.name _ _ c = key
    rw [hmap, List.mem_append, List.mem_singleton]
    by_cases hkey : key = s.serverName ++ buf text addr s.world.nextConnId
    · -- the new entry, which takes the place of no other
      rw [hkey, Function.update_self, Option.some_inj]
      constructor
      · rintro rfl
        exact ⟨.inr rfl, Function.update_self _ _ _⟩
      · rintro ⟨hc | hc, hname⟩
        · have hc := h.given c hc
          exact absurd ((hold c hc).symm.trans hname) (hfresh c hc)
        · exact hc.symm
    · rw [Function.update_of_ne hkey, h.connMap]
      constructor
      · rintro ⟨hc, hname⟩
        exact ⟨.inl hc, (hold c (h.given c hc)).trans hname⟩
      · rintro ⟨hc | rfl, hname⟩
        · exact ⟨hc, (hold c (h.given c hc)).symm.trans hname⟩
        · exact absurd (hname.symm.trans (Function.update_self _ _ _)) hkey

/-- The entry of the connection is erased, and no other. -/
theorem Named.erase_eq_some_iff (h : s.Named text serverName) (htext : Documented text) {key : Bytes}
    {c d : ℕ} : s.erase c key = some d ↔ s.connMap key = some d ∧ d ≠ c := by
  rw [erase]
  by_cases hkey : key = s.name c
  · subst hkey
    rw [Function.update_self]
    refine iff_of_false (Option.some_ne_none d).symm ?_
    rintro ⟨hd, hne⟩
    obtain ⟨hd, hname⟩ := (h.connMap _ _).mp hd
    exact hne (h.name_inj htext (h.given d hd) hname.symm).symm
  · rw [Function.update_of_ne hkey]
    refine ⟨fun hd => ⟨hd, ?_⟩, And.left⟩
    rintro rfl
    exact hkey ((h.connMap _ _).mp hd).2.symm

theorem reset_eq_some_iff {key : Bytes} {c d : ℕ} :
    s.reset c key = some d ↔ s.connMap key = some d ∧ d ≠ c := by
  rw [reset, Option.ite_none_left_eq_some, and_comm]
  refine and_congr_right fun hd => ?_
  rw [hd, Option.some_inj]

/-- What is left is what the step does not erase. -/
theorem Named.connMapAfter_eq_some_iff (h : s.Named text serverName) (htext : Documented text)
    {a : World.Action} {key : Bytes} {d : ℕ} :
    s.connMapAfter a key = some d ↔ s.connMap key = some d ∧ s.world.erased a ≠ some d := by
  have hsome : ∀ {c}, (s.connMap key = some d ∧ d ≠ c) ↔
      (s.connMap key = some d ∧ some c ≠ some d) := by
    intro c
    rw [ne_comm, Ne, Ne, Option.some_inj]
  rw [connMapAfter]
  cases s.world.erased a with
  | none => simp
  | some c =>
    cases a with
    | destructNext => rw [reset_eq_some_iff, hsome]
    | _ => rw [h.erase_eq_some_iff htext, hsome]

/-- Anything but a new connection. -/
theorem Named.other (h : s.Named text serverName) (htext : Documented text) {a : World.Action}
    (hs : s.step text (.other a) = some s') : s'.Named text serverName := by
  simp only [step, Option.ite_none_left_eq_some] at hs
  obtain ⟨hnew, hs⟩ := hs
  obtain ⟨w, hw, rfl⟩ := Option.map_eq_some_iff.mp hs
  have hkeeps : (s.world.eraseConn (s.world.erased a)).Keeps w := by
    refine World.keeps_of_other hw ?_
    rintro sockfd rfl
    exact hnew rfl
  have hid : w.nextConnId = s.world.nextConnId := hkeeps.nextConnId
  have hmap : w.connMap = (s.world.erased a).elim s.world.connMap s.world.connMap.erase :=
    hkeeps.connMap
  have hleft : ∀ d, d ∈ w.connMap ↔ d ∈ s.world.connMap ∧ s.world.erased a ≠ some d := by
    intro d
    rw [hmap]
    cases s.world.erased a with
    | none => simp
    | some c => rw [Option.elim_some, h.nodup.mem_erase_iff, and_comm, ne_comm, Ne, Ne,
        Option.some_inj]
  have hgiven : ∀ {c}, 1 ≤ c ∧ c < w.nextConnId ↔ s.Given c := by
    intro c
    rw [Given, hid]
  refine ⟨h.serverName_eq, hid.trans_lt h.bound, hid.symm ▸ h.pos, fun c hc => ?_, fun c hc => ?_,
    fun c hc => ?_, ?_, fun key c => ?_⟩
  · exact h.name c (hgiven.mp hc)
  · exact h.noName c fun hg => hc (hgiven.mpr hg)
  · exact hgiven.mpr (h.given c ((hleft c).mp hc).1)
  · show w.connMap.Nodup
    rw [hmap]
    cases s.world.erased a with
    | none => exact h.nodup
    | some c => exact h.nodup.erase c
  · show s.connMapAfter a key = some c ↔ c ∈ w.connMap ∧ s.name c = key
    rw [h.connMapAfter_eq_some_iff htext, h.connMap, hleft, and_right_comm]

theorem Named.of_step (htext : Documented text) {a : Action} (h : s.Named text serverName)
    (hs : s.step text a = some s') : s'.Named text serverName := by
  cases a with
  | newConnection sockfd addr => exact h.newConnection htext hs
  | other a => exact h.other htext hs

theorem named_new : (new serverName n).Named text serverName where
  serverName_eq := rfl
  bound := (by decide : 1 < 2147483648)
  pos := Nat.le_refl 1
  name := fun _ hc => absurd hc.2 (not_lt.mpr hc.1)
  noName := fun _ _ => rfl
  given := fun c hc => by cases hc
  nodup := List.nodup_nil
  connMap := fun key c => iff_of_false (Option.some_ne_none c).symm fun h => by cases h.1

/-- Without the names it is a step of the `World`. -/
theorem toWorld_of_step {a : Action} (hs : s.step text a = some s') :
    s.world.step a.toWorld = some s'.world := by
  cases a with
  | newConnection sockfd addr =>
    simp only [step, Option.ite_none_right_eq_some] at hs
    obtain ⟨w, hw, rfl⟩ := Option.map_eq_some_iff.mp hs.2
    exact hw
  | other a =>
    simp only [step, Option.ite_none_left_eq_some] at hs
    obtain ⟨w, hw, rfl⟩ := Option.map_eq_some_iff.mp hs.2
    exact hw

/-- **`connMap_` is the connections of the `World`.** In every run whose texts of addresses are as
documented, until `nextConnId_` reaches the last `int`: the run is one of the `World`; every name is
whole, with address, port and number; no two connections have the same name, so that no entry is
replaced; and the map has, under their names, the connections that the `World` has, and no others. -/
theorem connMap_refines (htext : Documented text) {as : List Action}
    (h : Runs.exec (step text) (new serverName n) as = some s) :
    Runs.exec World.step (.new n) (as.map Action.toWorld) = some s.world ∧
      (∀ c, s.Given c → s.name c = serverName ++ (ascii "-" ++ (s.peerAddr c).ipPort text ++ [HASH] ++
        ascii (toString (c : ℤ)))) ∧
      (∀ c d, s.Given c → s.Given d → s.name c = s.name d → c = d) ∧
      ∀ key c, s.connMap key = some c ↔ c ∈ s.world.connMap ∧ s.name c = key := by
  have hnamed : s.Named text serverName :=
    Runs.exec_induction named_new (fun _ _ _ hs ha => hs.of_step htext ha) h
  refine ⟨Runs.exec_map (f := world) (fun _ _ _ hs => toWorld_of_step hs) h, fun c hc => ?_,
    fun c d _ hd heq => hnamed.name_inj htext hd heq, hnamed.connMap⟩
  rw [hnamed.name c hc, buf_eq htext _ (hc.2.trans hnamed.bound)]

/-- The theorem at work on two connections from one host, one of which is closed. -/
theorem connMap_refines_two :
    ∃ s, Runs.exec (step letterText) (new (ascii "echo") 0)
        [.newConnection 7 (loopback 80), .newConnection 8 (loopback 80), .other (.handleClose 1),
          .other (.closeCallback 1)] = some s ∧
      s.connMap (ascii "echo-127.0.0.1:80#2") = some 2 ∧
      s.connMap (ascii "echo-127.0.0.1:80#1") ≠ some 1 := by
  have hrun : (Runs.exec (step letterText) (new (ascii "echo") 0)
      [.newConnection 7 (loopback 80), .newConnection 8 (loopback 80), .other (.handleClose 1),
        .other (.closeCallback 1)]).map (fun s => (s.world.connMap, s.name 2)) =
      some ([2], ascii "echo-127.0.0.1:80#2") := by
    decide +kernel
  obtain ⟨s, hs, heq⟩ := Option.map_eq_some_iff.mp hrun
  obtain ⟨hmap, hname⟩ := Prod.mk.inj heq
  obtain ⟨-, -, -, hrefines⟩ := connMap_refines documented_letterText hs
  refine ⟨s, hs, (hrefines _ _).mpr ⟨?_, hname⟩, fun h => ?_⟩
  · rw [hmap]
    decide
  · have hmem := ((hrefines _ _).mp h).1
    rw [hmap] at hmem
    exact absurd hmem (by decide)

end NamedServer

end Net

end Muduo
