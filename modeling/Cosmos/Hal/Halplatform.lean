/-!
# Where the kernel sees physical memory

`halplatform.c`: the kernel maps the first 16 GiB of physical memory at
`KRNL_MAP_VIRTADDRESS_START`, and `machbstart_t` says where the loader placed things.
-/

namespace Cosmos.Hal

/-- `KRNL_MAP_PHYADDRESS_END`. -/
abbrev krnlMapPhyaddressEnd : Nat := 0x400000000

/-- `KRNL_MAP_VIRTADDRESS_START`. -/
abbrev krnlMapVirtaddressStart : Nat := 0xffff800000000000

/-- `phyadr_to_viradr`. -/
def phyadrToViradr (kphyadr : Nat) : Except String Nat :=
  if krnlMapPhyaddressEnd ≤ kphyadr then .error "phyadr_to_viradr err\n"
  else .ok (kphyadr + krnlMapVirtaddressStart)

/-- `machbstart_t`: the fields that the loader and the kernel use to place things in
memory. -/
structure Machbstart where
  mbKrlinitstack : Nat
  mbKrlitstacksz : Nat
  mbImgpadr : Nat
  mbImgsz : Nat
  mbKrlimgpadr : Nat
  mbKrlsz : Nat
  mbKalldendpadr : Nat
  mbNextwtpadr : Nat
  mbBfontpadr : Nat
  mbBfontsz : Nat
  mbE820padr : Nat
  mbE820nr : Nat
  mbE820sz : Nat
  mbE820expadr : Nat
  mbE820exsz : Nat
  mbMemznpadr : Nat
  mbMemznsz : Nat
  mbMemmappadr : Nat
  mbMemmapsz : Nat
  mbPml4padr : Nat
  mbSubpageslen : Nat
  mbKpmapphymemsz : Nat
deriving DecidableEq, Repr

/-- `machbstart_t_init`. -/
def machbstartInit : Machbstart where
  mbKrlinitstack := 0
  mbKrlitstacksz := 0
  mbImgpadr := 0
  mbImgsz := 0
  mbKrlimgpadr := 0
  mbKrlsz := 0
  mbKalldendpadr := 0
  mbNextwtpadr := 0
  mbBfontpadr := 0
  mbBfontsz := 0
  mbE820padr := 0
  mbE820nr := 0
  mbE820sz := 0
  mbE820expadr := 0
  mbE820exsz := 0
  mbMemznpadr := 0
  mbMemznsz := 0
  mbMemmappadr := 0
  mbMemmapsz := 0
  mbPml4padr := 0
  mbSubpageslen := 0
  mbKpmapphymemsz := 0

end Cosmos.Hal
