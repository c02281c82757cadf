import Syndeo.Data.Block

/-!
# Whether an address is on the public internet

The table of `reach.rs`: what came from an address that is not public is not put
into the store of a cache that is told to keep only what came from the public
internet. An address in a block that the special-purpose registries reserve is
not public, and neither is any outside IPv6's global unicast space.
-/

namespace Syndeo

/-- `std::net::Ipv4Addr`, its octets read most significant first. -/
abbrev Ipv4Addr := BitVec 32

/-- `std::net::Ipv6Addr`. -/
abbrev Ipv6Addr := BitVec 128

/-- `std::net::IpAddr`. -/
inductive IpAddr
  | v4 (ip : Ipv4Addr)
  | v6 (ip : Ipv6Addr)
  deriving DecidableEq

namespace Reach

/-- `Ipv4Addr::new`. -/
def v4 (a b c d : BitVec 8) : Ipv4Addr := a ++ b ++ c ++ d

/-- `Ipv6Addr::new`. -/
def v6 (a b c d e f g h : BitVec 16) : Ipv6Addr := a ++ b ++ c ++ d ++ e ++ f ++ g ++ h

/-- The last four octets, as an IPv4 address. -/
def lastOctets (ip : Ipv6Addr) : Ipv4Addr := ip.setWidth 32

/-- `Ipv6Addr::to_ipv4_mapped`: the address in `::ffff:a.b.c.d`. -/
def toIpv4Mapped (ip : Ipv6Addr) : Option Ipv4Addr :=
  if ip >>> 32 = 0xffff then some (lastOctets ip) else none

/-- `NOT_PUBLIC_V4`. -/
def notPublicV4 : List (Block 32) :=
  [(v4 0 0 0 0, 8), (v4 10 0 0 0, 8), (v4 100 64 0 0, 10), (v4 127 0 0 0, 8),
    (v4 169 254 0 0, 16), (v4 172 16 0 0, 12), (v4 192 0 0 0, 24), (v4 192 0 2 0, 24),
    (v4 192 88 99 0, 24), (v4 192 168 0 0, 16), (v4 198 18 0 0, 15), (v4 198 51 100 0, 24),
    (v4 203 0 113 0, 24), (v4 224 0 0 0, 4), (v4 240 0 0 0, 4), (v4 255 255 255 255, 32)]

/-- `is_public_v4`. -/
def isPublicV4 (ip : Ipv4Addr) : Bool := !notPublicV4.any fun b => b.contains ip

/-- IPv4 carried in IPv6. -/
def mappedV6 : Block 128 := (v6 0 0 0 0 0 0xffff 0 0, 96)

/-- The well-known prefix of NAT64. -/
def translatedV6 : Block 128 := (v6 0x64 0xff9b 0 0 0 0 0 0, 96)

/-- Global unicast. -/
def globalV6 : Block 128 := (v6 0x2000 0 0 0 0 0 0 0, 3)

/-- `NOT_PUBLIC_IN_GLOBAL_V6`. -/
def notPublicInGlobalV6 : List (Block 128) :=
  [(v6 0x2001 0 0 0 0 0 0 0, 23), (v6 0x2001 0xdb8 0 0 0 0 0 0, 32),
    (v6 0x2002 0 0 0 0 0 0 0, 16), (v6 0x3fff 0 0 0 0 0 0 0, 20)]

/-- `is_public_v6`. -/
def isPublicV6 (ip : Ipv6Addr) : Bool :=
  if mappedV6.contains ip || translatedV6.contains ip then isPublicV4 (lastOctets ip)
  else globalV6.contains ip && !notPublicInGlobalV6.any fun b => b.contains ip

/-- `is_public`. -/
def isPublic : IpAddr → Bool
  | .v4 ip => isPublicV4 ip
  | .v6 ip => isPublicV6 ip

/-- What `to_ipv4_mapped` takes is what the table reads as IPv4. -/
theorem contains_mappedV6_iff {ip : Ipv6Addr} :
    mappedV6.contains ip = true ↔ toIpv4Mapped ip = some (lastOctets ip) := by
  rw [Block.contains_iff_ushiftRight, toIpv4Mapped]
  change ip >>> 32 = (0xffff : BitVec 128) ↔ _
  constructor
  · exact fun h => if_pos h
  · intro h
    by_contra hnot
    rw [if_neg hnot] at h
    exact nomatch h

/-- An address that carries an IPv4 address is as public as that one. -/
theorem isPublicV6_of_mapped {ip : Ipv6Addr} {carried : Ipv4Addr}
    (h : toIpv4Mapped ip = some carried) : isPublicV6 ip = isPublicV4 carried := by
  obtain rfl : carried = lastOctets ip := by
    rw [toIpv4Mapped] at h
    split at h
    · exact (Option.some.inj h).symm
    · exact nomatch h
  rw [isPublicV6, contains_mappedV6_iff.mpr h, Bool.true_or, if_pos rfl]

end Reach

end Syndeo
