import BradVector.Spmp

/-!
# The drive

The drive of `braddrive.c`: its tiers, its statistics, the commands on ranges of sectors, and the
load into the memory pool over the fabric. The command queue is only written to and has no place
here.
-/

namespace BradVector

open CSem

def bradDriveSectorSize : Size := 512
def bradDriveCacheLines : Nat := 64

inductive DriveTier where
  | standard
  | pro
  | elite
  | enterprise
  deriving DecidableEq, Repr

/-- The capacities of `drive_tiers`, in bytes. -/
def DriveTier.capacity : DriveTier → Size
  | .standard => 512 * 1024 * 1024 * 1024
  | .pro => 2 * 1024 * 1024 * 1024 * 1024
  | .elite => 4 * 1024 * 1024 * 1024 * 1024
  | .enterprise => 16 * 1024 * 1024 * 1024 * 1024

/-- `drive_state`. -/
structure BradDrive where
  tier : DriveTier
  initialized : Bool
  bytesRead : Size
  bytesWritten : Size
  readCmds : Word
  writeCmds : Word
  trimCmds : Word
  flushCmds : Word
  recentAccessLbas : List Size
  writeCacheSize : Size
  cacheDirty : Bool
  deriving DecidableEq, Repr

def bradDriveInit : BradDrive := ⟨.standard, true, 0, 0, 0, 0, 0, 0, [], 0, false⟩

def isValidLba (lba count capacityInSectors : Size) : Bool :=
  lba + count ≤ capacityInSectors && 0 < count

/-- Every tier is in the table. -/
def capacityToSectors (tier : DriveTier) : Size := tier.capacity / bradDriveSectorSize

/-- `brad_drive_read`, with the number of zero bytes it stores at `buf`. -/
def bradDriveRead (d : BradDrive) (lba buf count : Size) : Int × BradDrive × Size :=
  if ¬ d.initialized then (-enodev, d, 0)
  else if buf = 0 then (-einval, d, 0)
  else
    let sectors := capacityToSectors d.tier
    if ¬ isValidLba lba count sectors then (-einval, d, 0)
    else
      let bytes := count * bradDriveSectorSize
      ((bytes.setWidth 32).toInt, { d with
        bytesRead := d.bytesRead + bytes
        readCmds := d.readCmds + 1
        recentAccessLbas :=
          if d.recentAccessLbas.length < bradDriveCacheLines then d.recentAccessLbas ++ [lba]
          else d.recentAccessLbas }, bytes)

def bradDriveWrite (d : BradDrive) (lba buf count : Size) : Int × BradDrive :=
  if ¬ d.initialized then (-enodev, d)
  else if buf = 0 then (-einval, d)
  else
    let sectors := capacityToSectors d.tier
    if ¬ isValidLba lba count sectors then (-einval, d)
    else
      let bytes := count * bradDriveSectorSize
      ((bytes.setWidth 32).toInt, { d with
        bytesWritten := d.bytesWritten + bytes
        writeCmds := d.writeCmds + 1
        cacheDirty := true
        writeCacheSize := d.writeCacheSize + bytes })

def bradDriveTrim (d : BradDrive) (lba count : Size) : Int × BradDrive :=
  if ¬ d.initialized then (-enodev, d)
  else
    let sectors := capacityToSectors d.tier
    if ¬ isValidLba lba count sectors then (-einval, d)
    else (0, { d with trimCmds := d.trimCmds + 1 })

def bradDriveFlush (d : BradDrive) : Int × BradDrive :=
  if ¬ d.initialized then (-enodev, d)
  else (0, { d with flushCmds := d.flushCmds + 1, cacheDirty := false, writeCacheSize := 0 })

/-! ### Loads into the memory pool -/

/-- What a load works on beside the drive. -/
structure LoadWorld where
  spmp : Spmp
  fabric : Fabric
  ch : FabricChannel
  heap : Heap

/-- What `brad_drive_direct_load` returns and leaves behind, with the address it stores. -/
structure LoadResult where
  ret : Int
  drive : BradDrive
  world : LoadWorld
  outSpmpAddr : Option Size

/-- `brad_drive_direct_load`. Whether `dma_ch` is null is said apart from the channel it points
to. -/
def bradDriveDirectLoad {ε : Type} (d : BradDrive) (w : LoadWorld) (lba count : Size)
    (spmpPoolId : Nat) (dmaChNull : Bool) (outSpmpAddr : Size) : Outcome HeapFault ε LoadResult :=
  if ¬ d.initialized then .ok ⟨-enodev, d, w, none⟩
  else if dmaChNull || outSpmpAddr = 0 then .ok ⟨-einval, d, w, none⟩
  else if spmpPoolId = 0 then .ok ⟨-einval, d, w, none⟩
  else
    let bytes := count * bradDriveSectorSize
    match spmpAlloc w.spmp spmpPoolId bytes 4096 with
    | (ret, spmp, none) => .ok ⟨ret, d, { w with spmp }, none⟩
    | (_, spmp, some alloc) =>
        let nandAddr := lba * bradDriveSectorSize
        (fabricDma w.fabric w.heap w.ch nandAddr alloc.addr bytes).bind fun dma =>
          if dma.ret < 0 then
            .ok ⟨dma.ret, d, ⟨(spmpFree spmp alloc).2.1, dma.fabric, dma.ch, dma.heap⟩, none⟩
          else
            .ok ⟨0,
              { d with
                bytesRead := d.bytesRead + BitVec.ofInt 64 dma.ret
                readCmds := d.readCmds + 1 },
              ⟨spmp, dma.fabric, dma.ch, dma.heap⟩, some alloc.addr⟩

end BradVector
