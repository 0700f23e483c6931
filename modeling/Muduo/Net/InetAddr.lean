import Muduo.Base.Decimal
import Muduo.Foundations.Layout

/-! # `InetAddr`

An address of `muduo/net/InetAddr.h`: a union of `sockaddr_in` and `sockaddr_in6`, whose common
family field says which of the two is meant. Texts and bytes of addresses are converted by
`inet_pton` and `inet_ntop`, of which `AddressText` says what is relied on.

The constructor from a text lets `inet_pton` write an IPv4 address to `sin_port` instead of
`sin_addr`, so **`InetAddr.roundTrips_iff`**: port and address are read back from separate bytes
exactly for IPv6. The sibling constructor without a text (`port_ofPort`, `ip_ofPort`) is right for
both families. -/

namespace Muduo

open Layout

/-! ## Numbers of 16 bits in memory -/

/-- The two bytes of a 16-bit number in memory, on a little-endian machine. -/
def bytes16 (n : UInt16) : Bytes := [UInt8.ofNat (n.toNat % 256), UInt8.ofNat (n.toNat / 256)]

/-- The 16-bit number that two bytes in memory are, on a little-endian machine. -/
def number16 : Bytes → UInt16
  | [low, high] => UInt16.ofNat (low.toNat + 256 * high.toNat)
  | _ => 0

/-- `htons(n)`: the two bytes are swapped. -/
def htons (n : UInt16) : UInt16 := UInt16.ofNat (n.toNat % 256 * 256 + n.toNat / 256)

/-- `ntohs(n)`. -/
def ntohs (n : UInt16) : UInt16 := UInt16.ofNat (n.toNat % 256 * 256 + n.toNat / 256)

@[simp] theorem number16_bytes16 (n : UInt16) : number16 (bytes16 n) = n := by
  have hn := n.toNat_lt
  rw [bytes16, number16, ← UInt16.toNat_inj, UInt16.toNat_ofNat', UInt8.toNat_ofNat',
    UInt8.toNat_ofNat']
  omega

@[simp] theorem ntohs_htons (n : UInt16) : ntohs (htons n) = n := by
  have hn := n.toNat_lt
  have hswap : (n.toNat % 256 * 256 + n.toNat / 256) % 2 ^ 16 =
      n.toNat % 256 * 256 + n.toNat / 256 := Nat.mod_eq_of_lt (by omega)
  have hlow : (n.toNat % 256 * 256 + n.toNat / 256) % 256 = n.toNat / 256 := by omega
  have hhigh : (n.toNat % 256 * 256 + n.toNat / 256) / 256 = n.toNat % 256 := by omega
  rw [htons, ntohs, ← UInt16.toNat_inj, UInt16.toNat_ofNat', UInt16.toNat_ofNat', hswap, hlow,
    hhigh, Nat.div_add_mod', Nat.mod_eq_of_lt hn]

/-- Two bytes in network order. -/
theorem toNat_ntohs_number16 (a b : UInt8) :
    (ntohs (number16 [a, b])).toNat = 256 * a.toNat + b.toNat := by
  have ha := a.toNat_lt
  have hb := b.toNat_lt
  have hmod : (a.toNat + 256 * b.toNat) % 2 ^ 16 = a.toNat + 256 * b.toNat :=
    Nat.mod_eq_of_lt (by omega)
  have hlow : (a.toNat + 256 * b.toNat) % 256 = a.toNat := by omega
  have hhigh : (a.toNat + 256 * b.toNat) / 256 = b.toNat := by omega
  rw [number16, ntohs, UInt16.toNat_ofNat', UInt16.toNat_ofNat', hmod, hlow, hhigh]
  omega

/-! ## Texts of addresses -/

/-- `inet_pton` and `inet_ntop`. `ipv6` tells `AF_INET6` from `AF_INET`. -/
structure AddressText where
  /-- `inet_pton(af, text, dst)`: the bytes that it writes, in network order, if it accepts the
  text. -/
  inet_pton : (ipv6 : Bool) → Bytes → Option Bytes
  /-- `inet_ntop(af, src, ip, sizeof(ip))`: the canonical text. -/
  inet_ntop : (ipv6 : Bool) → Bytes → Bytes
  /-- The sizes of `in6_addr` and `in_addr`. -/
  length_inet_pton : ∀ {ipv6 text addr}, inet_pton ipv6 text = some addr →
    addr.length = if ipv6 then 16 else 4
  /-- The canonical text stands for the bytes. -/
  inet_pton_inet_ntop : ∀ {ipv6 : Bool} {addr : Bytes}, addr.length = (if ipv6 then 16 else 4) →
    inet_pton ipv6 (inet_ntop ipv6 addr) = some addr

/-- The bytes that a C string has before its NUL. -/
def c_str (s : Bytes) : Bytes := s.takeWhile (· ≠ 0)

/-- `AF_INET`. -/
def AF_INET : UInt16 := 2

/-- `AF_INET6`. -/
def AF_INET6 : UInt16 := 10

namespace InetAddr

/-! ## The two layouts -/

/-- `sockaddr_in::sin_family`. -/
def sin_family : Field := ⟨0, 2⟩

/-- `sockaddr_in::sin_port`. -/
def sin_port : Field := ⟨2, 2⟩

/-- `sockaddr_in::sin_addr`. -/
def sin_addr : Field := ⟨4, 4⟩

/-- `sockaddr_in6::sin6_family`. -/
def sin6_family : Field := ⟨0, 2⟩

/-- `sockaddr_in6::sin6_port`. -/
def sin6_port : Field := ⟨2, 2⟩

/-- `sockaddr_in6::sin6_addr`. -/
def sin6_addr : Field := ⟨8, 16⟩

/-- `sizeof(sockaddr_in)`. -/
def sizeofAddr : ℕ := 16

/-- `sizeof(sockaddr_in6)`. -/
def sizeofAddr6 : ℕ := 28

end InetAddr

/-- An `InetAddr`: the bytes of the union. -/
structure InetAddr where
  /-- The bytes of `addr_` and of `addr6_`. -/
  bytes : Object UInt8

namespace InetAddr

/-- Where the constructor stores the port. -/
def portField (ipv6 : Bool) : Field := if ipv6 then sin6_port else sin_port

/-- Where the constructor lets `inet_pton` write: `&addr6_.sin6_addr`, or `&addr_.sin_port`. -/
def addressField (ipv6 : Bool) : Field :=
  if ipv6 then ⟨sin6_addr.offset, 16⟩ else ⟨sin_port.offset, 4⟩

/-- The union after `memset`, the family and the port. `raw` is what was there before. -/
def init (raw : Object UInt8) (port : UInt16) (ipv6 : Bool) : Object UInt8 :=
  if ipv6 then
    let m := write raw 0 (List.replicate sizeofAddr6 0)
    let m := write m sin6_family.offset (bytes16 AF_INET6)
    write m sin6_port.offset (bytes16 (htons port))
  else
    let m := write raw 0 (List.replicate sizeofAddr 0)
    let m := write m sin_family.offset (bytes16 AF_INET)
    write m sin_port.offset (bytes16 (htons port))

/-- `InetAddr(Ip, port, ipv6)`. A text that `inet_pton` does not accept writes nothing. -/
def ofIp (text : AddressText) (raw : Object UInt8) (ip : Bytes) (port : UInt16) (ipv6 : Bool) :
    InetAddr :=
  match text.inet_pton ipv6 (c_str ip) with
  | some addr => ⟨write (init raw port ipv6) (addressField ipv6).offset addr⟩
  | none => ⟨init raw port ipv6⟩

/-- `in6addr_loopback` and `in6addr_any`, `INADDR_LOOPBACK` and `INADDR_ANY`, in network order. -/
def localAddress (loopBackOnly ipv6 : Bool) : Bytes :=
  if ipv6 then List.replicate 15 0 ++ [if loopBackOnly then 1 else 0]
  else if loopBackOnly then [127, 0, 0, 1] else [0, 0, 0, 0]

/-- `InetAddr(port, loopBackOnly, ipv6)`. -/
def ofPort (raw : Object UInt8) (port : UInt16) (loopBackOnly ipv6 : Bool) : InetAddr :=
  ⟨write (init raw port ipv6) (if ipv6 then sin6_addr else sin_addr).offset
    (localAddress loopBackOnly ipv6)⟩

/-- `family()`. -/
def family (a : InetAddr) : UInt16 := number16 (read a.bytes sin_family)

/-- `Ip()`. -/
def ip (text : AddressText) (a : InetAddr) : Bytes :=
  if a.family = AF_INET then text.inet_ntop false (read a.bytes sin_addr)
  else if a.family = AF_INET6 then text.inet_ntop true (read a.bytes sin6_addr)
  else []

/-- `port()`. -/
def port (a : InetAddr) : UInt16 :=
  if a.family = AF_INET then ntohs (number16 (read a.bytes sin_port))
  else if a.family = AF_INET6 then ntohs (number16 (read a.bytes sin6_port))
  else 0

/-- `IpPort()`. -/
def ipPort (text : AddressText) (a : InetAddr) : Bytes :=
  a.ip text ++ [COLON] ++ ascii (toString (a.port.toNat : ℤ))

/-! ## What the constructors leave -/

variable {raw : Object UInt8} {p : UInt16} {ipv6 : Bool} {addr : Bytes}

theorem read_init_family : read (init raw p ipv6) sin_family =
    bytes16 (if ipv6 then AF_INET6 else AF_INET) := by
  cases ipv6 with
  | false =>
    show read (write _ sin_port.offset (bytes16 (htons p))) sin_family = bytes16 AF_INET
    rw [read_write_of_apart _ (.inl (le_refl 2)), read_write_self _ rfl]
  | true =>
    show read (write _ sin6_port.offset (bytes16 (htons p))) sin_family = bytes16 AF_INET6
    rw [read_write_of_apart _ (.inl (le_refl 2))]
    exact read_write_self (f := sin6_family) _ rfl

theorem read_init_port : read (init raw p ipv6) (portField ipv6) = bytes16 (htons p) := by
  cases ipv6 with
  | false => exact read_write_self (f := sin_port) _ rfl
  | true => exact read_write_self (f := sin6_port) _ rfl

/-- The rest of `sockaddr_in` is zero. -/
theorem read_init_zero {k n : ℕ} (hk : 4 ≤ k) (hn : k + n ≤ sizeofAddr) :
    read (init raw p false) ⟨k, n⟩ = List.replicate n 0 := by
  have hsize : sizeofAddr = 16 := rfl
  have hport : (⟨k, n⟩ : Field).Apart ⟨sin_port.offset, (bytes16 (htons p)).length⟩ := .inr hk
  have hfamily : (⟨k, n⟩ : Field).Apart ⟨sin_family.offset, (bytes16 AF_INET).length⟩ :=
    .inr (le_trans (by decide) hk)
  show read (write (write (write raw 0 (List.replicate sizeofAddr 0)) sin_family.offset
    (bytes16 AF_INET)) sin_port.offset (bytes16 (htons p))) ⟨k, n⟩ = _
  rw [read_write_of_apart _ hport, read_write_of_apart _ hfamily,
    read_write_of_le _ (Nat.zero_le _) (by rw [List.length_replicate]; simpa using hn),
    List.drop_replicate, List.take_replicate]
  congr 1
  simp only
  omega

/-- The family that both layouts share decides how the bytes are read. -/
theorem family_write {k : ℕ} (hk : 2 ≤ k) :
    family ⟨write (init raw p ipv6) k addr⟩ = if ipv6 then AF_INET6 else AF_INET := by
  show number16 (read (write (init raw p ipv6) k addr) sin_family) = _
  have hapart : sin_family.Apart ⟨k, addr.length⟩ := .inl hk
  rw [read_write_of_apart _ hapart, read_init_family, number16_bytes16]

/-- An address is read where it is written. -/
theorem ip_of_family {text : AddressText} {a : InetAddr}
    (h : a.family = if ipv6 then AF_INET6 else AF_INET) :
    a.ip text = text.inet_ntop ipv6 (read a.bytes (if ipv6 then sin6_addr else sin_addr)) := by
  rw [ip, h]
  cases ipv6 <;> rfl

theorem port_of_family {a : InetAddr} (h : a.family = if ipv6 then AF_INET6 else AF_INET) :
    a.port = ntohs (number16 (read a.bytes (portField ipv6))) := by
  rw [port, h]
  cases ipv6 <;> rfl

/-- A port stays where nothing is written over it. -/
theorem port_write {k : ℕ} (hk : 4 ≤ k) : port ⟨write (init raw p ipv6) k addr⟩ = p := by
  have hapart : (portField ipv6).Apart ⟨k, addr.length⟩ := by
    cases ipv6 <;> exact .inl hk
  rw [port_of_family (family_write (le_trans (by decide) hk)), read_write_of_apart _ hapart,
    read_init_port, number16_bytes16, ntohs_htons]

/-! ## The constructor from a port -/

theorem length_localAddress {b : Bool} :
    (localAddress b ipv6).length = if ipv6 then 16 else 4 := by
  cases ipv6 <;> cases b <;> rfl

/-- **The sibling constructor keeps port and address apart**, for both families. -/
theorem port_ofPort {b : Bool} : (ofPort raw p b ipv6).port = p := by
  cases ipv6 <;> exact port_write (by decide)

theorem ip_ofPort {text : AddressText} {b : Bool} :
    (ofPort raw p b ipv6).ip text = text.inet_ntop ipv6 (localAddress b ipv6) := by
  have hfamily : (ofPort raw p b ipv6).family = if ipv6 then AF_INET6 else AF_INET := by
    cases ipv6 <;> exact family_write (by decide)
  rw [ip_of_family hfamily]
  refine congrArg _ (read_write_self _ ?_)
  rw [length_localAddress]
  cases ipv6 <;> rfl

/-! ## The constructor from a text -/

/-- `port()`, `Ip()` and `IpPort()` give back what the address `a` was made of: the port `p` and an
address whose bytes are `addr`. -/
structure RoundTrips (text : AddressText) (a : InetAddr) (p : UInt16) (ipv6 : Bool) (addr : Bytes) :
    Prop where
  port_eq : a.port = p
  ip_eq : a.ip text = text.inet_ntop ipv6 addr
  ipPort_eq : a.ipPort text =
    text.inet_ntop ipv6 addr ++ [COLON] ++ ascii (toString (p.toNat : ℤ))

variable {text : AddressText} {s : Bytes}

theorem ofIp_eq (h : text.inet_pton ipv6 (c_str s) = some addr) :
    ofIp text raw s p ipv6 = ⟨write (init raw p ipv6) (addressField ipv6).offset addr⟩ := by
  rw [ofIp, h]

/-- The text that joins address and port is right if both are. -/
theorem roundTrips_of {a : InetAddr} (hport : a.port = p)
    (hip : a.ip text = text.inet_ntop ipv6 addr) : RoundTrips text a p ipv6 addr :=
  ⟨hport, hip, by rw [ipPort, hport, hip]⟩

/-- IPv6 addresses round-trip. -/
theorem roundTrips_inet6 (h : text.inet_pton true (c_str s) = some addr) :
    RoundTrips text (ofIp text raw s p true) p true addr := by
  rw [ofIp_eq h]
  refine roundTrips_of (port_write (by decide)) ?_
  rw [ip_of_family (family_write (by decide))]
  exact congrArg _ (read_write_self (f := sin6_addr) _ (text.length_inet_pton h))

/-- **What becomes of an IPv4 address `a.b.c.d`**: its first half is read as the port, its second
half as the first half of the address. -/
theorem ofIp_inet {a b c d : UInt8} (h : text.inet_pton false (c_str s) = some [a, b, c, d]) :
    (ofIp text raw s p false).port.toNat = 256 * a.toNat + b.toNat ∧
      (ofIp text raw s p false).ip text = text.inet_ntop false [c, d, 0, 0] := by
  rw [ofIp_eq h]
  have hfamily : family ⟨write (init raw p false) sin_port.offset [a, b, c, d]⟩ = AF_INET :=
    @family_write raw p false _ _ (by decide)
  constructor
  · -- the two bytes at `sin_port` are the first two of the address
    rw [← toNat_ntohs_number16 a b]
    refine congrArg _ ((@port_of_family false _ hfamily).trans ?_)
    exact congrArg (ntohs ∘ number16) (read_write_of_le _ le_rfl (Nat.le_add_right 4 2))
  · -- `sin_addr` begins inside of what was written and ends in the zeros behind it
    refine (@ip_of_family false _ _ hfamily).trans (congrArg _ ?_)
    have hhead : read (write (init raw p false) sin_port.offset [a, b, c, d]) ⟨4, 2⟩ = [c, d] :=
      read_write_of_le _ (by decide) (le_refl 6)
    have htail : read (write (init raw p false) sin_port.offset [a, b, c, d]) ⟨6, 2⟩ = [0, 0] := by
      rw [read_write_of_apart _ (.inr (le_refl 6)), read_init_zero (by decide) (by decide)]
      rfl
    exact (read_add _ 4 2 2).trans (by rw [hhead, htail]; rfl)

/-- Different addresses have different texts. -/
theorem AddressText.inet_ntop_inj {addr' : Bytes} (h : addr.length = if ipv6 then 16 else 4)
    (h' : addr'.length = if ipv6 then 16 else 4)
    (heq : text.inet_ntop ipv6 addr = text.inet_ntop ipv6 addr') : addr = addr' := by
  have hback := text.inet_pton_inet_ntop h
  rw [heq, text.inet_pton_inet_ntop h'] at hback
  exact (Option.some.inj hback).symm

/-- **The only IPv4 address and port that are read back** are `0.0.0.0` and 0. -/
theorem roundTrips_inet_iff (h : text.inet_pton false (c_str s) = some addr) :
    RoundTrips text (ofIp text raw s p false) p false addr ↔ p = 0 ∧ addr = [0, 0, 0, 0] := by
  have hlen : addr.length = 4 := text.length_inet_pton h
  obtain ⟨a, b, c, d, rfl⟩ : ∃ a b c d, addr = [a, b, c, d] := by
    match addr, hlen with
    | [a, b, c, d], _ => exact ⟨a, b, c, d, rfl⟩
  obtain ⟨hport, hip⟩ := @ofIp_inet raw p text s a b c d h
  constructor
  · intro hr
    have haddr := @AddressText.inet_ntop_inj false _ text _ rfl rfl (hip.symm.trans hr.ip_eq)
    obtain ⟨hc, hd, rfl, rfl⟩ : c = a ∧ d = b ∧ c = 0 ∧ d = 0 := by
      simpa [eq_comm] using haddr
    subst hc hd
    rw [hr.port_eq] at hport
    exact ⟨UInt16.toNat_inj.mp hport, rfl⟩
  · rintro ⟨rfl, haddr⟩
    obtain ⟨rfl, rfl, rfl, rfl⟩ : a = 0 ∧ b = 0 ∧ c = 0 ∧ d = 0 := by simpa using haddr
    exact roundTrips_of (UInt16.toNat_inj.mp hport) hip

/-- **The addresses that round-trip.** For every port and every text that `inet_pton` accepts, port
and address are read back from bytes that do not overlap if and only if the address is an IPv6 one.
For IPv4 the bytes overlap, and the values are right only if all of them are zero. -/
theorem roundTrips_iff (h : text.inet_pton ipv6 (c_str s) = some addr) :
    (RoundTrips text (ofIp text raw s p ipv6) p ipv6 addr ∧
        (portField ipv6).Apart (addressField ipv6) ↔ ipv6 = true) ∧
      (RoundTrips text (ofIp text raw s p ipv6) p ipv6 addr ↔
        ipv6 = true ∨ p = 0 ∧ addr = [0, 0, 0, 0]) := by
  cases ipv6 with
  | false =>
    refine ⟨iff_of_false (fun hr => absurd hr.2 (by decide)) Bool.false_ne_true, ?_⟩
    rw [roundTrips_inet_iff h]
    exact (or_iff_right Bool.false_ne_true).symm
  | true =>
    exact ⟨iff_of_true ⟨roundTrips_inet6 h, by decide⟩ rfl,
      iff_of_true (roundTrips_inet6 h) (.inl rfl)⟩

/-- The text of the loopback address. -/
def loopbackName (ipv6 : Bool) : Bytes := if ipv6 then ascii "::1" else ascii "127.0.0.1"

/-- Conversions that know the loopback addresses; any other address is its own text. -/
def loopbackText : AddressText where
  inet_pton ipv6 text :=
    if text = loopbackName ipv6 then some (localAddress true ipv6)
    else if text.length = (if ipv6 then 16 else 4) then some text
    else none
  inet_ntop ipv6 addr := if addr = localAddress true ipv6 then loopbackName ipv6 else addr
  length_inet_pton := by
    intro ipv6 text addr h
    by_cases hname : text = loopbackName ipv6
    · rw [if_pos hname] at h
      cases h
      exact length_localAddress
    · rw [if_neg hname, Option.ite_none_right_eq_some] at h
      obtain ⟨hlen, heq⟩ := h
      cases heq
      exact hlen
  inet_pton_inet_ntop := by
    intro ipv6 addr h
    by_cases hloop : addr = localAddress true ipv6
    · rw [if_pos hloop, if_pos rfl, hloop]
    · -- the name of the loopback address has another length
      have hname : addr ≠ loopbackName ipv6 := by
        rintro rfl
        cases ipv6 <;> exact absurd h (by decide)
      rw [if_neg hloop, if_neg hname, if_pos h]

/-- The theorem at work on the two loopback addresses. -/
theorem roundTrips_iff_loopback :
    (RoundTrips loopbackText (ofIp loopbackText (fun _ => 0) (ascii "::1") 80 true) 80 true
        (localAddress true true) ∧ (portField true).Apart (addressField true)) ∧
      ¬ RoundTrips loopbackText (ofIp loopbackText (fun _ => 0) (ascii "127.0.0.1") 80 false) 80
        false (localAddress true false) := by
  refine ⟨(roundTrips_iff (by decide)).1.mpr rfl, fun h => ?_⟩
  rcases (roundTrips_iff (by decide)).2.mp h with hipv6 | ⟨hport, -⟩
  · exact absurd hipv6 Bool.false_ne_true
  · exact absurd hport (by decide)

/-- `InetAddr("127.0.0.1", 80)`: the text is accepted, but the port is read as 32512 and the address
as `0.1.0.0`. -/
theorem not_roundTrips_loopback :
    loopbackText.inet_pton false (c_str (ascii "127.0.0.1")) = some [127, 0, 0, 1] ∧
      (ofIp loopbackText (fun _ => 0) (ascii "127.0.0.1") 80 false).port = 32512 ∧
      read (ofIp loopbackText (fun _ => 0) (ascii "127.0.0.1") 80 false).bytes sin_addr =
        [0, 1, 0, 0] ∧
      ¬ RoundTrips loopbackText (ofIp loopbackText (fun _ => 0) (ascii "127.0.0.1") 80 false) 80
        false [127, 0, 0, 1] := by
  have hport : (ofIp loopbackText (fun _ => 0) (ascii "127.0.0.1") 80 false).port = 32512 := by
    decide
  refine ⟨by decide, hport, by decide, fun h => ?_⟩
  exact absurd (hport.symm.trans h.port_eq) (by decide)

end InetAddr

end Muduo
