import RinaDown.AddressBlocks

/-!
# The guard against addresses that are not public

A plugin may fetch public addresses only. The guard reads the four octets of an IPv4 address,
and of an IPv6 address first the IPv4 address that a mapped, a 6to4 or a NAT64 address carries.
The blocks of the address space and the ways to carry an IPv4 address are stated here on their
own, and the guard is compared with them.
-/

namespace RinaDown.AddressGuard

open AddressBlocks List

/-! ## Addresses -/

@[ext]
structure Ipv4Addr where
  a : UInt8
  b : UInt8
  c : UInt8
  d : UInt8
deriving DecidableEq

@[ext]
structure Ipv6Addr where
  s0 : UInt16
  s1 : UInt16
  s2 : UInt16
  s3 : UInt16
  s4 : UInt16
  s5 : UInt16
  s6 : UInt16
  s7 : UInt16
deriving DecidableEq

inductive IpAddr where
  | v4 (ip : Ipv4Addr)
  | v6 (ip : Ipv6Addr)
deriving DecidableEq

def Ipv4Addr.toNat (ip : Ipv4Addr) : ℕ :=
  ip.a.toNat * 2 ^ 24 + ip.b.toNat * 2 ^ 16 + ip.c.toNat * 2 ^ 8 + ip.d.toNat

def Ipv6Addr.toNat (ip : Ipv6Addr) : ℕ :=
  ip.s0.toNat * 2 ^ 112 + ip.s1.toNat * 2 ^ 96 + ip.s2.toNat * 2 ^ 80 + ip.s3.toNat * 2 ^ 64 +
    ip.s4.toNat * 2 ^ 48 + ip.s5.toNat * 2 ^ 32 + ip.s6.toNat * 2 ^ 16 + ip.s7.toNat

/-! ## The predicates of the standard library -/

namespace Ipv4Addr

variable (ip : Ipv4Addr)

def isLoopback : Bool := ip.a == 127

def isPrivate : Bool :=
  ip.a == 10 || (ip.a == 172 && (16 ≤ ip.b && ip.b ≤ 31)) || (ip.a == 192 && ip.b == 168)

def isLinkLocal : Bool := ip.a == 169 && ip.b == 254

def isBroadcast : Bool := ip == ⟨255,255,255,255⟩

def isMulticast : Bool := 224 ≤ ip.a && ip.a ≤ 239

def isUnspecified : Bool := ip == ⟨0,0,0,0⟩

def isDocumentation : Bool :=
  (ip.a == 192 && ip.b == 0 && ip.c == 2) || (ip.a == 198 && ip.b == 51 && ip.c == 100) ||
    (ip.a == 203 && ip.b == 0 && ip.c == 113)

end Ipv4Addr

def ofSegments (high low : UInt16) : Ipv4Addr :=
  ⟨(high >>> 8).toUInt8,(high &&& 0xff).toUInt8,(low >>> 8).toUInt8,(low &&& 0xff).toUInt8⟩

namespace Ipv6Addr

variable (ip : Ipv6Addr)

def toIpv4Mapped : Option Ipv4Addr :=
  if ip.s0 = 0 ∧ ip.s1 = 0 ∧ ip.s2 = 0 ∧ ip.s3 = 0 ∧ ip.s4 = 0 ∧ ip.s5 = 0xffff then
    some (ofSegments ip.s6 ip.s7)
  else none

def isLoopback : Bool := ip == ⟨0,0,0,0,0,0,0,1⟩

def isUnspecified : Bool := ip == ⟨0,0,0,0,0,0,0,0⟩

def isMulticast : Bool := (ip.s0 &&& 0xff00) == 0xff00

def isUniqueLocal : Bool := (ip.s0 &&& 0xfe00) == 0xfc00

def isUnicastLinkLocal : Bool := (ip.s0 &&& 0xffc0) == 0xfe80

end Ipv6Addr

/-! ## The guard -/

def isV4Routable (ip : Ipv4Addr) : Bool :=
  if ip.isLoopback || ip.isPrivate || ip.isLinkLocal || ip.isBroadcast || ip.isMulticast ||
      ip.isUnspecified || ip.isDocumentation then false
  else if ip.a == 0 then false
  else if ip.a == 100 && (ip.b &&& 0xc0) == 0x40 then false
  else if ip.a == 198 && (ip.b &&& 0xfe) == 18 then false
  else if (ip.a &&& 0xf0) == 240 then false
  else true

def isV6Routable (ip : Ipv6Addr) : Bool :=
  match ip.toIpv4Mapped with
  | some v4 => isV4Routable v4
  | none =>
      if ip.s0 == 0x2002 then isV4Routable (ofSegments ip.s1 ip.s2)
      else if ip.s0 == 0x0064 && ip.s1 == 0xff9b then isV4Routable (ofSegments ip.s6 ip.s7)
      else if ip.isLoopback || ip.isMulticast || ip.isUnspecified || ip.isUniqueLocal ||
          ip.isUnicastLinkLocal then false
      else if ip.s0 == 0x2001 && ip.s1 == 0x0000 then false
      else if ip.s0 == 0x2001 && ip.s1 == 0x0db8 then false
      else true

def isGloballyRoutableUnicast : IpAddr → Bool
  | .v4 ip => isV4Routable ip
  | .v6 ip => isV6Routable ip

/-! ## Octets and segments as numbers -/

variable {ip : Ipv6Addr} {a : Ipv4Addr}

theorem octet_and (x mask : UInt8) (k : ℕ) (hmask : mask.toNat = (2 ^ (8 - k) - 1) * 2 ^ k) :
    (x &&& mask).toNat = x.toNat / 2 ^ k * 2 ^ k := by
  rw [UInt8.toNat_and, hmask]
  exact and_leading x.toNat k x.toNat_lt

theorem segment_and (x mask : UInt16) (k : ℕ) (hmask : mask.toNat = (2 ^ (16 - k) - 1) * 2 ^ k) :
    (x &&& mask).toNat = x.toNat / 2 ^ k * 2 ^ k := by
  rw [UInt16.toNat_and, hmask]
  exact and_leading x.toNat k x.toNat_lt

theorem isUniqueLocal_iff : ip.isUniqueLocal = true ↔ ip.s0.toNat / 2 ^ 9 = 126 := by
  have h := segment_and ip.s0 0xfe00 9 rfl
  have hlt := ip.s0.toNat_lt
  rw [Ipv6Addr.isUniqueLocal, beq_iff_eq, ← UInt16.toNat_inj, h]
  simp only [UInt16.reduceToNat]
  omega

theorem isUnicastLinkLocal_iff : ip.isUnicastLinkLocal = true ↔ ip.s0.toNat / 2 ^ 6 = 1018 := by
  have h := segment_and ip.s0 0xffc0 6 rfl
  have hlt := ip.s0.toNat_lt
  rw [Ipv6Addr.isUnicastLinkLocal, beq_iff_eq, ← UInt16.toNat_inj, h]
  simp only [UInt16.reduceToNat]
  omega

theorem isMulticast_iff : ip.isMulticast = true ↔ ip.s0.toNat / 2 ^ 8 = 255 := by
  have h := segment_and ip.s0 0xff00 8 rfl
  have hlt := ip.s0.toNat_lt
  rw [Ipv6Addr.isMulticast, beq_iff_eq, ← UInt16.toNat_inj, h]
  simp only [UInt16.reduceToNat]
  omega

/-! ## The blocks -/

/-- The IPv4 blocks that are not public unicast space, first address and length. -/
def reservedBlocks : List (Block 32) :=
  [⟨0,8,by decide⟩, ⟨10 * 2 ^ 24,8,by decide⟩, ⟨100 * 2 ^ 24 + 64 * 2 ^ 16,10,by decide⟩,
    ⟨127 * 2 ^ 24,8,by decide⟩, ⟨169 * 2 ^ 24 + 254 * 2 ^ 16,16,by decide⟩,
    ⟨172 * 2 ^ 24 + 16 * 2 ^ 16,12,by decide⟩, ⟨192 * 2 ^ 24 + 2 * 2 ^ 8,24,by decide⟩,
    ⟨192 * 2 ^ 24 + 168 * 2 ^ 16,16,by decide⟩, ⟨198 * 2 ^ 24 + 18 * 2 ^ 16,15,by decide⟩,
    ⟨198 * 2 ^ 24 + 51 * 2 ^ 16 + 100 * 2 ^ 8,24,by decide⟩,
    ⟨203 * 2 ^ 24 + 113 * 2 ^ 8,24,by decide⟩, ⟨224 * 2 ^ 24,4,by decide⟩,
    ⟨240 * 2 ^ 24,4,by decide⟩]

def Reserved (ip : Ipv4Addr) : Prop := ∃ block ∈ reservedBlocks, block.Contains ip.toNat

theorem reserved_iff : Reserved a ↔
    a.a.toNat = 0 ∨ a.a.toNat = 10 ∨ (a.a.toNat = 100 ∧ a.b.toNat / 64 = 1) ∨
      a.a.toNat = 127 ∨ (a.a.toNat = 169 ∧ a.b.toNat = 254) ∨
      (a.a.toNat = 172 ∧ a.b.toNat / 16 = 1) ∨
      (a.a.toNat = 192 ∧ a.b.toNat = 0 ∧ a.c.toNat = 2) ∨ (a.a.toNat = 192 ∧ a.b.toNat = 168) ∨
      (a.a.toNat = 198 ∧ a.b.toNat / 2 = 9) ∨
      (a.a.toNat = 198 ∧ a.b.toNat = 51 ∧ a.c.toNat = 100) ∨
      (a.a.toNat = 203 ∧ a.b.toNat = 0 ∧ a.c.toNat = 113) ∨
      a.a.toNat / 16 = 14 ∨ a.a.toNat / 16 = 15 := by
  have hx := a.a.toNat_lt
  have hy := a.b.toNat_lt
  have hz := a.c.toNat_lt
  have hw := a.d.toNat_lt
  simp only [Reserved, reservedBlocks, mem_cons, not_mem_nil, or_false,
    exists_eq_or_imp, exists_eq_left, Block.contains_iff, Ipv4Addr.toNat]
  refine or_congr (by omega) (or_congr (by omega) (or_congr (by omega) (or_congr (by omega)
    (or_congr (by omega) (or_congr (by omega) (or_congr (by omega) (or_congr (by omega)
    (or_congr (by omega) (or_congr (by omega) (or_congr (by omega) (or_congr (by omega)
    (by omega))))))))))))

theorem isV4Routable_eq_false : isV4Routable a = false ↔ Reserved a := by
  have hcgnat := octet_and a.b 0xc0 6 rfl
  have hbench := octet_and a.b 0xfe 1 rfl
  have hhigh := octet_and a.a 0xf0 4 rfl
  have hx := a.a.toNat_lt
  have hy := a.b.toNat_lt
  have hprivate : 16 ≤ a.b.toNat ∧ a.b.toNat ≤ 31 ↔ a.b.toNat / 16 = 1 := by omega
  have hmulticast : 224 ≤ a.a.toNat ∧ a.a.toNat ≤ 239 ↔ a.a.toNat / 16 = 14 := by omega
  have hshared : a.b.toNat / 64 * 64 = 64 ↔ a.b.toNat / 64 = 1 := by omega
  have htests : a.b.toNat / 2 * 2 = 18 ↔ a.b.toNat / 2 = 9 := by omega
  have hfirst : a.a.toNat / 16 * 16 = 240 ↔ a.a.toNat / 16 = 15 := by omega
  rw [reserved_iff]
  simp only [isV4Routable, Ipv4Addr.isLoopback, Ipv4Addr.isPrivate, Ipv4Addr.isLinkLocal,
    Ipv4Addr.isBroadcast, Ipv4Addr.isMulticast, Ipv4Addr.isUnspecified, Ipv4Addr.isDocumentation,
    Bool.ite_then_false_eq_false, Bool.or_eq_true, Bool.and_eq_true, beq_iff_eq, decide_eq_true_eq,
    Ipv4Addr.ext_iff, ← UInt8.toNat_inj, UInt8.le_iff_toNat_le, hcgnat, hbench, hhigh,
    UInt8.reduceToNat, Nat.reducePow, Bool.true_eq_false, or_false, hprivate, hmulticast, hshared, htests, hfirst,
    and_assoc, or_assoc]
  constructor
  · intro h
    rcases h with h | h | h | h | h | h | h | h | h | h | h | h | h | h | h
    all_goals simp [h]
  · intro h
    rcases h with h | h | h | h | h | h | h | h | h | h | h | h | h
    all_goals simp [h]

/-! ## Special IPv6 blocks and embedded IPv4 addresses -/

def unspecified : Block 128 := ⟨0,128,by decide⟩
def loopback : Block 128 := ⟨1,128,by decide⟩
def multicast : Block 128 := ⟨0xff00 * 2 ^ 112,8,by decide⟩
def linkLocal : Block 128 := ⟨0xfe80 * 2 ^ 112,10,by decide⟩
def siteLocal : Block 128 := ⟨0xfec0 * 2 ^ 112,10,by decide⟩
def uniqueLocal : Block 128 := ⟨0xfc00 * 2 ^ 112,7,by decide⟩
def teredo : Block 128 := ⟨0x2001 * 2 ^ 112,32,by decide⟩
def documentation : Block 128 := ⟨0x2001 * 2 ^ 112 + 0x0db8 * 2 ^ 96,32,by decide⟩
def newDocumentation : Block 128 := ⟨0x3fff * 2 ^ 112,20,by decide⟩

def specialBlocks : List (Block 128) :=
  [unspecified, loopback, multicast, linkLocal, siteLocal, uniqueLocal, teredo, documentation,
    newDocumentation]

/-- The standard ways to carry an IPv4 address. A NAT64 prefix of 48 bits carries it around the
eighth octet, and a longer one of 96 bits below it in the last two segments. -/
inductive Layout where
  | mapped
  | compatible
  | sixToFour
  | nat64
  | nat64Local
  | nat64Local48

def Layout.block : Layout → Block 128
  | .mapped => ⟨0xffff * 2 ^ 32,96,by decide⟩
  | .compatible => ⟨0,96,by decide⟩
  | .sixToFour => ⟨0x2002 * 2 ^ 112,16,by decide⟩
  | .nat64 => ⟨0x64 * 2 ^ 112 + 0xff9b * 2 ^ 96,96,by decide⟩
  | .nat64Local => ⟨0x64 * 2 ^ 112 + 0xff9b * 2 ^ 96 + 2 ^ 80,48,by decide⟩
  | .nat64Local48 => ⟨0x64 * 2 ^ 112 + 0xff9b * 2 ^ 96 + 2 ^ 80,48,by decide⟩

def Layout.embedded : Layout → Ipv6Addr → Ipv4Addr
  | .sixToFour, ip => ofSegments ip.s1 ip.s2
  | .nat64Local48, ip =>
      ⟨(ip.s3 >>> 8).toUInt8,ip.s3.toUInt8,ip.s4.toUInt8,(ip.s5 >>> 8).toUInt8⟩
  | _, ip => ofSegments ip.s6 ip.s7

structure Carries (layout : Layout) (ip : Ipv6Addr) (a : Ipv4Addr) : Prop where
  block : layout.block.Contains ip.toNat
  embedded : layout.embedded ip = a
  /-- The eighth octet of the 48-bit layout is zero. -/
  unused : layout = .nat64Local48 → ip.s4.toNat < 256

/-- What no plugin may reach. -/
inductive Forbidden : IpAddr → Prop where
  | v4 {a : Ipv4Addr} : Reserved a → Forbidden (.v4 a)
  | carried {layout : Layout} {ip : Ipv6Addr} {a : Ipv4Addr} :
      Carries layout ip a → Reserved a → Forbidden (.v6 ip)
  | special {block : Block 128} {ip : Ipv6Addr} :
      block ∈ specialBlocks → block.Contains ip.toNat → Forbidden (.v6 ip)

/-- The addresses that no branch of the guard looks at. -/
inductive Missed : IpAddr → Prop where
  | compatible {ip : Ipv6Addr} {a : Ipv4Addr} :
      Carries .compatible ip a → Reserved a → 2 ≤ a.toNat → Missed (.v6 ip)
  | siteLocal {ip : Ipv6Addr} : siteLocal.Contains ip.toNat → Missed (.v6 ip)
  | documentation {ip : Ipv6Addr} : newDocumentation.Contains ip.toNat → Missed (.v6 ip)
  | nat64Local48 {ip : Ipv6Addr} {a : Ipv4Addr} :
      Carries .nat64Local48 ip a → Reserved a → ¬ Reserved (ofSegments ip.s6 ip.s7) →
        Missed (.v6 ip)

/-! ## The blocks by segments -/

theorem toNat_ofSegments (high low : UInt16) :
    (ofSegments high low).toNat = high.toNat * 2 ^ 16 + low.toNat := by
  have hhigh := high.toNat_lt
  have hlow := low.toNat_lt
  have hlowOctet : ∀ x : UInt16, (x &&& 0xff).toNat = x.toNat % 256 := by
    intro x
    rw [UInt16.toNat_and]
    exact Nat.and_two_pow_sub_one_eq_mod x.toNat 8
  have hhighOctet : ∀ x : UInt16, (x >>> 8).toNat = x.toNat / 256 := by
    intro x
    rw [UInt16.toNat_shiftRight]
    exact Nat.shiftRight_eq_div_pow x.toNat 8
  simp only [ofSegments, Ipv4Addr.toNat, UInt16.toNat_toUInt8, hlowOctet, hhighOctet]
  omega

theorem segments_lt (ip : Ipv6Addr) :
    ip.s0.toNat < 65536 ∧ ip.s1.toNat < 65536 ∧ ip.s2.toNat < 65536 ∧ ip.s3.toNat < 65536 ∧
      ip.s4.toNat < 65536 ∧ ip.s5.toNat < 65536 ∧ ip.s6.toNat < 65536 ∧ ip.s7.toNat < 65536 :=
  ⟨ip.s0.toNat_lt,ip.s1.toNat_lt,ip.s2.toNat_lt,ip.s3.toNat_lt,ip.s4.toNat_lt,
    ip.s5.toNat_lt,ip.s6.toNat_lt,ip.s7.toNat_lt⟩

theorem mapped_iff : Layout.mapped.block.Contains ip.toNat ↔
    ip.s0 = 0 ∧ ip.s1 = 0 ∧ ip.s2 = 0 ∧ ip.s3 = 0 ∧ ip.s4 = 0 ∧ ip.s5 = 0xffff := by
  have hlt := segments_lt ip
  simp only [Layout.block, Block.contains_iff, Ipv6Addr.toNat, ← UInt16.toNat_inj,
    UInt16.reduceToNat]
  omega

theorem compatible_iff : Layout.compatible.block.Contains ip.toNat ↔
    ip.s0 = 0 ∧ ip.s1 = 0 ∧ ip.s2 = 0 ∧ ip.s3 = 0 ∧ ip.s4 = 0 ∧ ip.s5 = 0 := by
  have hlt := segments_lt ip
  simp only [Layout.block, Block.contains_iff, Ipv6Addr.toNat, ← UInt16.toNat_inj,
    UInt16.reduceToNat]
  omega

theorem sixToFour_iff : Layout.sixToFour.block.Contains ip.toNat ↔ ip.s0 = 0x2002 := by
  have hlt := segments_lt ip
  simp only [Layout.block, Block.contains_iff, Ipv6Addr.toNat, ← UInt16.toNat_inj,
    UInt16.reduceToNat]
  omega

/-- The NAT64 layouts, all of which lie below `64:ff9b::/32`. -/
theorem nat64_segments {layout : Layout}
    (hlayout : layout = .nat64 ∨ layout = .nat64Local ∨ layout = .nat64Local48)
    (h : layout.block.Contains ip.toNat) : ip.s0 = 0x64 ∧ ip.s1 = 0xff9b := by
  have hlt := segments_lt ip
  rw [Block.contains_iff] at h
  rcases hlayout with rfl | rfl | rfl
  all_goals
    simp only [Layout.block, Ipv6Addr.toNat, ← UInt16.toNat_inj, UInt16.reduceToNat] at h ⊢
    omega

theorem siteLocal_iff : siteLocal.Contains ip.toNat ↔ ip.s0.toNat / 64 = 1019 := by
  have hlt := segments_lt ip
  simp only [siteLocal, Block.contains_iff, Ipv6Addr.toNat]
  omega

theorem newDocumentation_iff : newDocumentation.Contains ip.toNat ↔
    ip.s0.toNat = 0x3fff ∧ ip.s1.toNat < 0x1000 := by
  have hlt := segments_lt ip
  simp only [newDocumentation, Block.contains_iff, Ipv6Addr.toNat]
  omega

/-! ## The branches of the guard -/

theorem toIpv4Mapped_of_mapped (h : Layout.mapped.block.Contains ip.toNat) :
    ip.toIpv4Mapped = some (ofSegments ip.s6 ip.s7) := by
  rw [Ipv6Addr.toIpv4Mapped, if_pos (mapped_iff.1 h)]

theorem toIpv4Mapped_of_not_mapped (h : ¬ Layout.mapped.block.Contains ip.toNat) :
    ip.toIpv4Mapped = none := by
  rw [Ipv6Addr.toIpv4Mapped, if_neg (fun hs => h (mapped_iff.2 hs))]

theorem isV6Routable_mapped (h : Layout.mapped.block.Contains ip.toNat) :
    isV6Routable ip = isV4Routable (ofSegments ip.s6 ip.s7) := by
  rw [isV6Routable, toIpv4Mapped_of_mapped h]

theorem isV6Routable_sixToFour (h : ip.s0 = 0x2002) :
    isV6Routable ip = isV4Routable (ofSegments ip.s1 ip.s2) := by
  have hmapped : ¬ Layout.mapped.block.Contains ip.toNat := by
    rw [mapped_iff]
    simp [h]
  rw [isV6Routable, toIpv4Mapped_of_not_mapped hmapped]
  simp [h]

theorem isV6Routable_nat64 (h0 : ip.s0 = 0x64) (h1 : ip.s1 = 0xff9b) :
    isV6Routable ip = isV4Routable (ofSegments ip.s6 ip.s7) := by
  have hmapped : ¬ Layout.mapped.block.Contains ip.toNat := by
    rw [mapped_iff]
    simp [h0]
  rw [isV6Routable, toIpv4Mapped_of_not_mapped hmapped]
  simp [h0, h1]

/-- The tests that are left for an address which carries no IPv4 address that the guard reads. -/
theorem isV6Routable_plain (hmapped : ¬ Layout.mapped.block.Contains ip.toNat)
    (hsix : ip.s0 ≠ 0x2002) (hnat : ¬ (ip.s0 = 0x64 ∧ ip.s1 = 0xff9b)) :
    isV6Routable ip = false ↔
      loopback.Contains ip.toNat ∨ multicast.Contains ip.toNat ∨ unspecified.Contains ip.toNat ∨
        uniqueLocal.Contains ip.toNat ∨ linkLocal.Contains ip.toNat ∨ teredo.Contains ip.toNat ∨
        documentation.Contains ip.toNat := by
  have hlt := segments_lt ip
  have hloop : ip.isLoopback = true ↔ loopback.Contains ip.toNat := by
    simp only [Ipv6Addr.isLoopback, beq_iff_eq, Ipv6Addr.ext_iff, ← UInt16.toNat_inj,
      UInt16.reduceToNat, loopback, Block.contains_iff, Ipv6Addr.toNat]
    omega
  have hunspecified : ip.isUnspecified = true ↔ unspecified.Contains ip.toNat := by
    simp only [Ipv6Addr.isUnspecified, beq_iff_eq, Ipv6Addr.ext_iff, ← UInt16.toNat_inj,
      UInt16.reduceToNat, unspecified, Block.contains_iff, Ipv6Addr.toNat]
    omega
  have hmulticast : ip.isMulticast = true ↔ multicast.Contains ip.toNat := by
    simp only [isMulticast_iff, multicast, Block.contains_iff, Ipv6Addr.toNat]
    omega
  have hunique : ip.isUniqueLocal = true ↔ uniqueLocal.Contains ip.toNat := by
    simp only [isUniqueLocal_iff, uniqueLocal, Block.contains_iff, Ipv6Addr.toNat]
    omega
  have hlink : ip.isUnicastLinkLocal = true ↔ linkLocal.Contains ip.toNat := by
    simp only [isUnicastLinkLocal_iff, linkLocal, Block.contains_iff, Ipv6Addr.toNat]
    omega
  have hteredo : ip.s0 = 0x2001 ∧ ip.s1 = 0 ↔ teredo.Contains ip.toNat := by
    simp only [← UInt16.toNat_inj, UInt16.reduceToNat, teredo, Block.contains_iff, Ipv6Addr.toNat]
    omega
  have hdocumentation : ip.s0 = 0x2001 ∧ ip.s1 = 0x0db8 ↔ documentation.Contains ip.toNat := by
    simp only [← UInt16.toNat_inj, UInt16.reduceToNat, documentation, Block.contains_iff,
      Ipv6Addr.toNat]
    omega
  rw [isV6Routable, toIpv4Mapped_of_not_mapped hmapped]
  simp only [beq_iff_eq, Bool.and_eq_true, if_neg hsix, if_neg hnat, Bool.ite_then_false_eq_false,
    Bool.or_eq_true, hloop, hunspecified, hmulticast, hunique, hlink, hteredo, hdocumentation,
    Bool.true_eq_false, or_false, or_assoc]

/-! ## What the guard misses -/

/-- An address outside of the seven blocks that the plain tests know is let through. -/
theorem isV6Routable_of_plain (hmapped : ¬ Layout.mapped.block.Contains ip.toNat)
    (hsix : ip.s0 ≠ 0x2002) (hnat : ¬ (ip.s0 = 0x64 ∧ ip.s1 = 0xff9b))
    (hone : 2 ≤ ip.toNat) (hunique : ip.s0.toNat / 2 ^ 9 ≠ 126)
    (hlink : ip.s0.toNat / 2 ^ 6 ≠ 1018) (hmulticast : ip.s0.toNat / 2 ^ 8 ≠ 255)
    (hglobal : ip.s0.toNat ≠ 0x2001) : isV6Routable ip = true := by
  have hlt := segments_lt ip
  rw [← Bool.not_eq_false, isV6Routable_plain hmapped hsix hnat]
  simp only [loopback, multicast, unspecified, uniqueLocal, linkLocal, teredo, documentation,
    Block.contains_iff]
  simp only [Ipv6Addr.toNat] at hone ⊢
  omega

theorem routable_of_missed {ip : IpAddr} (h : Missed ip) : isGloballyRoutableUnicast ip = true := by
  cases h with
  | @compatible ip a hcarries ha htwo =>
      have hsegments := compatible_iff.1 hcarries.block
      obtain ⟨h0,h1,h2,h3,h4,h5⟩ := hsegments
      have hlow := toNat_ofSegments ip.s6 ip.s7
      rw [show ofSegments ip.s6 ip.s7 = a from hcarries.embedded] at hlow
      apply isV6Routable_of_plain
      · simp [mapped_iff, h5]
      · simp [h0]
      · simp [h0]
      · simp only [Ipv6Addr.toNat, h0, h1, h2, h3, h4, h5, UInt16.reduceToNat]
        omega
      all_goals simp [h0]
  | @siteLocal ip hsite =>
      have hlt := segments_lt ip
      rw [siteLocal_iff] at hsite
      apply isV6Routable_of_plain
      · simp only [mapped_iff, ← UInt16.toNat_inj, UInt16.reduceToNat]
        omega
      all_goals
        simp only [Ipv6Addr.toNat, ne_eq, ← UInt16.toNat_inj, UInt16.reduceToNat]
        omega
  | @documentation ip hdocumentation =>
      have hlt := segments_lt ip
      rw [newDocumentation_iff] at hdocumentation
      apply isV6Routable_of_plain
      · simp only [mapped_iff, ← UInt16.toNat_inj, UInt16.reduceToNat]
        omega
      all_goals
        simp only [Ipv6Addr.toNat, ne_eq, ← UInt16.toNat_inj, UInt16.reduceToNat]
        omega
  | @nat64Local48 ip a hcarries ha hlow =>
      obtain ⟨h0,h1⟩ := nat64_segments (by simp) hcarries.block
      show isV6Routable ip = true
      rw [isV6Routable_nat64 h0 h1, ← Bool.not_eq_false, isV4Routable_eq_false]
      exact hlow

theorem rejects_carried {layout : Layout} {ip : Ipv6Addr} {a : Ipv4Addr}
    (h : Carries layout ip a) (ha : Reserved a) (hnot : ¬ Missed (.v6 ip)) :
    isV6Routable ip = false := by
  have hcarries := h
  obtain ⟨hblock,rfl,-⟩ := h
  cases layout with
  | mapped =>
      rw [isV6Routable_mapped hblock, isV4Routable_eq_false]
      exact ha
  | compatible =>
      -- Only `::` and `::1` are no missed addresses, and both have a test of their own.
      obtain ⟨h0,h1,h2,h3,h4,h5⟩ := compatible_iff.1 hblock
      have hlow := toNat_ofSegments ip.s6 ip.s7
      have hsmall : (ofSegments ip.s6 ip.s7).toNat < 2 := by
        by_contra hlarge
        exact hnot (.compatible hcarries ha (Nat.not_lt.1 hlarge))
      rw [isV6Routable_plain (by simp [mapped_iff, h5]) (by simp [h0]) (by simp [h0])]
      simp only [loopback, multicast, unspecified, Block.contains_iff, Ipv6Addr.toNat, h0, h1, h2,
        h3, h4, h5, UInt16.reduceToNat]
      omega
  | sixToFour =>
      rw [isV6Routable_sixToFour (sixToFour_iff.1 hblock), isV4Routable_eq_false]
      exact ha
  | nat64 | nat64Local =>
      obtain ⟨h0,h1⟩ := nat64_segments (by simp) hblock
      rw [isV6Routable_nat64 h0 h1, isV4Routable_eq_false]
      exact ha
  | nat64Local48 =>
      obtain ⟨h0,h1⟩ := nat64_segments (by simp) hblock
      rw [isV6Routable_nat64 h0 h1, isV4Routable_eq_false]
      by_contra hlow
      exact hnot (.nat64Local48 hcarries ha hlow)

/-- No special block reaches into the space of the layouts that the guard reads. -/
theorem special_segments {block : Block 128} {ip : Ipv6Addr} (hblock : block ∈ specialBlocks)
    (h : block.Contains ip.toNat) :
    ip.toNat < 2 ∨ ip.s0.toNat = 0x2001 ∨ 0x3fff ≤ ip.s0.toNat := by
  have hlt := segments_lt ip
  rw [Block.contains_iff] at h
  simp only [specialBlocks, mem_cons, not_mem_nil, or_false] at hblock
  rcases hblock with rfl | rfl | rfl | rfl | rfl | rfl | rfl | rfl | rfl
  all_goals
    simp only [unspecified, loopback, multicast, linkLocal, siteLocal, uniqueLocal, teredo,
      documentation, newDocumentation, Ipv6Addr.toNat] at h ⊢
    omega

theorem rejects_special {block : Block 128} {ip : Ipv6Addr} (hblock : block ∈ specialBlocks)
    (h : block.Contains ip.toNat) (hnot : ¬ Missed (.v6 ip)) : isV6Routable ip = false := by
  have hlt := segments_lt ip
  have hsegments := special_segments hblock h
  simp only [Ipv6Addr.toNat] at hsegments
  have hmapped : ¬ Layout.mapped.block.Contains ip.toNat := by
    simp only [mapped_iff, ← UInt16.toNat_inj, UInt16.reduceToNat]
    omega
  have hsix : ip.s0 ≠ 0x2002 := by
    simp only [ne_eq, ← UInt16.toNat_inj, UInt16.reduceToNat]
    omega
  have hnat : ¬ (ip.s0 = 0x64 ∧ ip.s1 = 0xff9b) := by
    simp only [← UInt16.toNat_inj, UInt16.reduceToNat]
    omega
  rw [isV6Routable_plain hmapped hsix hnat]
  simp only [specialBlocks, mem_cons, not_mem_nil, or_false] at hblock
  rcases hblock with rfl | rfl | rfl | rfl | rfl | rfl | rfl | rfl | rfl
  case inr.inr.inr.inr.inl => exact absurd (.siteLocal h) hnot
  case inr.inr.inr.inr.inr.inr.inr.inr => exact absurd (.documentation h) hnot
  all_goals simp only [h, true_or, or_true]

/-- The guard rejects a forbidden address unless it is one of the missed kinds. -/
theorem routable_iff_missed {ip : IpAddr} (h : Forbidden ip) :
    isGloballyRoutableUnicast ip = true ↔ Missed ip := by
  constructor
  · intro hroutable
    by_contra hnot
    have hrejected : isGloballyRoutableUnicast ip = false := by
      cases h with
      | v4 ha => exact isV4Routable_eq_false.2 ha
      | carried hcarries ha => exact rejects_carried hcarries ha hnot
      | special hblock hcontains => exact rejects_special hblock hcontains hnot
    rw [hrejected] at hroutable
    cases hroutable
  · exact routable_of_missed

end RinaDown.AddressGuard
