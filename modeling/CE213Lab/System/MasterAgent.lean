import CE213Lab.Foundation.BitField

/-!
# Command packets

The 105-bit packets of the interconnect with the field positions `System.v` gives its agents, and
the command side of `altera_merlin_master_agent.sv`. Every master of the system has a burst count of
one word (`BURSTING` is 0), so no read is compressed and every beat is a packet; `av_lock` and
`av_writeresponserequest` are tied low. The address routers of the two DMA masters know one slave
each and only fill in its id.
-/

namespace CE213Lab.System

open Foundation

abbrev Packet := BitVec 105

namespace Packet

def data (p : Packet) : BitVec 32 := getField 0 32 p

def byteen (p : Packet) : BitVec 4 := getField 32 4 p

def addr (p : Packet) : BitVec 32 := getField 36 32 p

def transCompressedRead (p : Packet) : Bool := p.getLsbD 68

def transPosted (p : Packet) : Bool := p.getLsbD 69

def transWrite (p : Packet) : Bool := p.getLsbD 70

def transRead (p : Packet) : Bool := p.getLsbD 71

def transLock (p : Packet) : Bool := p.getLsbD 72

def srcId (p : Packet) : BitVec 3 := getField 89 3 p

def destId (p : Packet) : BitVec 3 := getField 92 3 p

end Packet

namespace MasterAgent

/-- The signals of a master, as its translator hands them over. -/
structure Master where
  address : BitVec 32
  write : Bool
  read : Bool
  writedata : BitVec 32
  byteenable : BitVec 4
  debugaccess : Bool

/-- The address of the word. -/
def avAddressAligned (av : Master) : BitVec 32 :=
  setField 0 (0 : BitVec 2) av.address

def cpValid (av : Master) : Bool :=
  av.write || av.read

/-- `ID` and `BURSTWRAP_VALUE`, the parameters in which the agents of the masters differ. -/
structure Params where
  id : BitVec 3
  burstwrapValue : BitVec 3

/-- `nios2_qsys_0_instruction_master`. -/
def instructionMaster : Params := ⟨3, 3⟩

/-- `nios2_qsys_0_data_master`. -/
def dataMaster : Params := ⟨2, 7⟩

/-- `INCR` or `WRAP`. -/
def burstTypeValue (p : Params) : BitVec 2 :=
  if p.burstwrapValue.getLsbD 2 then 1 else 2

/-- The command packet of a master. -/
def cpData (p : Params) (av : Master) : Packet :=
  (0 : Packet) |> setBit 96 av.debugaccess
    |> setBit 97 true
    |> setBit 98 false
    |> setField 77 p.burstwrapValue
    |> setField 74 (4 : BitVec 3)
    |> setField 36 (avAddressAligned av)
    |> setBit 73 false
    |> setBit 72 false
    |> setBit 68 false
    |> setBit 71 av.read
    |> setBit 70 av.write
    |> setBit 69 av.write
    |> setField 0 av.writedata
    |> setField 32 av.byteenable
    |> setField 80 (2 : BitVec 3)
    |> setField 83 (burstTypeValue p)
    |> setField 89 p.id
    |> setBit 95 false
    |> setField 99 (0 : BitVec 4)
    |> setBit 88 false
    |> setBit 85 false
    |> setBit 86 false

/-- The packet behind an address router that has decoded `destid`. -/
def routed (p : Params) (destid : BitVec 3) (av : Master) : Packet :=
  setField 92 destid (cpData p av)

section Fields

variable (p : Params) (destid : BitVec 3) (av : Master)

@[simp] theorem data_routed : (routed p destid av).data = av.writedata := by
  simp [routed, cpData, Packet.data, setBit, getField_setField, getField_setField_of_disjoint]

@[simp] theorem byteen_routed : (routed p destid av).byteen = av.byteenable := by
  simp [routed, cpData, Packet.byteen, setBit, getField_setField, getField_setField_of_disjoint]

@[simp] theorem addr_routed : (routed p destid av).addr = avAddressAligned av := by
  simp [routed, cpData, Packet.addr, setBit, getField_setField, getField_setField_of_disjoint]

@[simp] theorem srcId_routed : (routed p destid av).srcId = p.id := by
  simp [routed, cpData, Packet.srcId, setBit, getField_setField, getField_setField_of_disjoint]

@[simp] theorem transWrite_routed : (routed p destid av).transWrite = av.write := by
  simp [routed, cpData, Packet.transWrite, getLsbD_setField, getLsbD_setBit,
    -BitVec.getLsbD_eq_getElem]

@[simp] theorem transRead_routed : (routed p destid av).transRead = av.read := by
  simp [routed, cpData, Packet.transRead, getLsbD_setField, getLsbD_setBit,
    -BitVec.getLsbD_eq_getElem]

@[simp] theorem transPosted_routed : (routed p destid av).transPosted = av.write := by
  simp [routed, cpData, Packet.transPosted, getLsbD_setField, getLsbD_setBit,
    -BitVec.getLsbD_eq_getElem]

@[simp] theorem transLock_routed : (routed p destid av).transLock = false := by
  simp [routed, cpData, Packet.transLock, getLsbD_setField, getLsbD_setBit,
    -BitVec.getLsbD_eq_getElem]

end Fields

end MasterAgent

end CE213Lab.System
