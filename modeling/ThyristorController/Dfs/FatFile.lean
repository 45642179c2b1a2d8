import ThyristorController.Dfs.FatChain

/-!
# Files on a FAT volume (`components/dfs/filesystems/elmfat/ff.c`)

`f_read`, `f_write`, `f_lseek`, `f_truncate` and `f_sync` of open files. A `FIL` has the cluster and the sector of the
file pointer, and a buffer for that sector, which may be dirty. The user's buffers are memories.
-/

namespace ThyristorController.Fat

open Bytes

/-! ## The drive -/

/-- `disk_read` of one sector. -/
def Drive.read (d : Drive) (sect : Nat) : Option Memory := if d.bad sect then none else some (d.sector sect)

/-- One of some sectors in a row is bad. -/
def Drive.badIn (d : Drive) (sect count : Nat) : Bool := (List.range count).any fun i => d.bad (sect + i)

/-- `disk_read` of some sectors in a row. -/
def Drive.readSpan (d : Drive) (ssize sect count : Nat) : Option Memory :=
  if d.badIn sect count then none else some fun a => d.sector (sect + a / ssize) (a % ssize)

/-- `disk_write` of one sector. -/
def Drive.writeSect (d : Drive) (sect : Nat) (b : Memory) : Option Drive :=
  if d.bad sect then none else some (d.write sect b)

/-- `disk_write` of some sectors in a row. -/
def Drive.writeSpan (d : Drive) (ssize sect count : Nat) (src : Memory) : Option Drive :=
  if d.badIn sect count then none
  else
    some { d with
      sector := fun s => if sect ≤ s ∧ s < sect + count then fun a => src ((s - sect) * ssize + a) else d.sector s }

/-- `mem_cpy` of `n` bytes to `a`. -/
def memCpy (m : Memory) (a n : Nat) (src : Memory) : Memory := fun x => if a ≤ x ∧ x < a + n then src (x - a) else m x

/-! ## `FIL` -/

/-- `FIL`, with the flags `FA_READ`, `FA_WRITE`, `FA_MODIFIED` and `FA_DIRTY`. The directory entry is in the sector
`dirSect`, from `dirPtr` on. -/
structure Fil where
  read : Bool
  write : Bool
  modified : Bool
  dirty : Bool
  err : FResult
  fptr : Nat
  objsize : Nat
  sclust : Nat
  clust : Nat
  sect : Nat
  buf : Memory
  dirSect : Nat
  dirPtr : Nat

/-- `ABORT` keeps the error in the file. -/
def Fil.abort (fp : Fil) (res : FResult) : Fil := { fp with err := res }

def clust2sect (g : Geometry) (clst : Nat) : Nat :=
  if clst < 2 ∨ g.nFatent ≤ clst then 0 else (clst - 2) * g.csize + g.database

/-- Bytes per cluster. -/
def Geometry.bcs (g : Geometry) : Nat := g.csize * g.ssize

/-- Write the buffer back if it is dirty. -/
def flush (fs : Fatfs) (fp : Fil) : Fatfs × Fil × FResult :=
  if fp.dirty then
    match fs.drive.writeSect fp.sect fp.buf with
    | none => (fs, fp, .diskErr)
    | some drive => ({ fs with drive := drive }, { fp with dirty := false }, .ok)
  else (fs, fp, .ok)

/-- Have a sector in the buffer. -/
def loadSector (fs : Fatfs) (fp : Fil) (sect : Nat) : Fatfs × Fil × FResult :=
  if fp.sect ≠ sect then
    let (fs, fp, res) := flush fs fp
    if res ≠ .ok then (fs, fp, res)
    else
      match fs.drive.read sect with
      | none => (fs, fp, .diskErr)
      | some buf => (fs, { fp with buf := buf, sect := sect }, .ok)
  else (fs, fp, .ok)

/-- How a round of a loop ends: with so many bytes, or with a full volume, or with an error. -/
inductive Round where
  | moved (cnt : Nat)
  | full
  | failed (res : FResult)

/-- The sector of the file pointer in its cluster. -/
def csect (fs : Fatfs) (fp : Fil) : Nat := fp.fptr / fs.ssize &&& (fs.csize - 1)

/-- The number of whole sectors of a transfer, as far as the cluster goes. -/
def wholeSectors (fs : Fatfs) (fp : Fil) (bt : Nat) : Nat :=
  if csect fs fp + bt / fs.ssize > fs.csize then fs.csize - csect fs fp else bt / fs.ssize

/-- The bytes of a transfer in the sector of the file pointer. -/
def sectorBytes (fs : Fatfs) (fp : Fil) (bt : Nat) : Nat :=
  if fs.ssize - fp.fptr % fs.ssize > bt then bt else fs.ssize - fp.fptr % fs.ssize

/-! ## `f_read` -/

/-- On a sector boundary: the cluster of the file pointer, and its sector. -/
def readSector (fs : Fatfs) (fp : Fil) : Fatfs × Fil × Except FResult Nat :=
  if csect fs fp = 0 then
    let (fs, clst) := if fp.fptr = 0 then (fs, fp.sclust) else getFat fs fp.clust
    if clst < 2 then (fs, fp, .error .intErr)
    else if clst = noSector then (fs, fp, .error .diskErr)
    else
      let sect := clust2sect fs.toGeometry clst
      (fs, { fp with clust := clst }, if sect = 0 then .error .intErr else .ok sect)
  else
    let sect := clust2sect fs.toGeometry fp.clust
    (fs, fp, if sect = 0 then .error .intErr else .ok (sect + csect fs fp))

/-- Read whole sectors directly, and what is newer in the buffer. -/
def readDirect (fs : Fatfs) (fp : Fil) (rbuff : Memory) (br btr sect : Nat) : Memory × Round :=
  let cc := wholeSectors fs fp btr
  match fs.drive.readSpan fs.ssize sect cc with
  | none => (rbuff, .failed .diskErr)
  | some src =>
    let rbuff := memCpy rbuff br (fs.ssize * cc) src
    -- the difference is unsigned
    if fp.dirty ∧ sect ≤ fp.sect ∧ fp.sect - sect < cc then
      (memCpy rbuff (br + (fp.sect - sect) * fs.ssize) fs.ssize fp.buf, .moved (fs.ssize * cc))
    else (rbuff, .moved (fs.ssize * cc))

/-- Read a part of the sector in the buffer. -/
def readBuffer (fs : Fatfs) (fp : Fil) (rbuff : Memory) (br btr : Nat) : Memory × Round :=
  let rcnt := sectorBytes fs fp btr
  (memCpy rbuff br rcnt fun a => fp.buf (fp.fptr % fs.ssize + a), .moved rcnt)

/-- On a sector boundary, when the sector is known. -/
def readAligned (fs : Fatfs) (fp : Fil) (rbuff : Memory) (br btr sect : Nat) : Fatfs × Fil × Memory × Round :=
  if btr / fs.ssize ≠ 0 then (fs, fp, readDirect fs fp rbuff br btr sect)
  else
    let (fs, fp, res) := loadSector fs fp sect
    if res ≠ .ok then (fs, fp, rbuff, .failed res) else (fs, fp, readBuffer fs fp rbuff br btr)

def readRound (fs : Fatfs) (fp : Fil) (rbuff : Memory) (br btr : Nat) : Fatfs × Fil × Memory × Round :=
  if fp.fptr % fs.ssize = 0 then
    match readSector fs fp with
    | (fs, fp, .error res) => (fs, fp, rbuff, .failed res)
    | (fs, fp, .ok sect) => readAligned fs fp rbuff br btr sect
  else (fs, fp, readBuffer fs fp rbuff br btr)

/-- The loop of `f_read`. Every round reads a byte at least. -/
def readLoop : Nat → Fatfs → Fil → Memory → Nat → Nat → Fatfs × Fil × Memory × Nat × FResult
  | 0, fs, fp, rbuff, br, _ => (fs, fp, rbuff, br, .ok)
  | n + 1, fs, fp, rbuff, br, btr =>
    if btr = 0 then (fs, fp, rbuff, br, .ok)
    else
      match readRound fs fp rbuff br btr with
      | (fs, fp, rbuff, .moved rcnt) =>
        readLoop n fs { fp with fptr := fp.fptr + rcnt } rbuff (br + rcnt) (btr - rcnt)
      | (fs, fp, rbuff, .full) => (fs, fp, rbuff, br, .ok)
      | (fs, fp, rbuff, .failed res) => (fs, fp.abort res, rbuff, br, res)

def fRead (fs : Fatfs) (fp : Fil) (rbuff : Memory) (btr : Nat) : Fatfs × Fil × Memory × Nat × FResult :=
  if fp.err ≠ .ok then (fs, fp, rbuff, 0, fp.err)
  else if ¬ fp.read then (fs, fp, rbuff, 0, .denied)
  else
    let remain := (fp.objsize + 0x100000000 - fp.fptr) % 0x100000000
    let btr := if btr > remain then remain else btr
    readLoop btr fs fp rbuff 0 btr

/-! ## `f_write` -/

/-- On a cluster boundary: the cluster of the file pointer, which is made if there is none. -/
def writeCluster (fs : Fatfs) (fp : Fil) : Fatfs × Nat :=
  if fp.fptr = 0 then if fp.sclust = 0 then createChain fs 0 else (fs, fp.sclust) else createChain fs fp.clust

/-- On a sector boundary: the cluster and the sector of the file pointer, with nothing dirty left in the buffer. -/
def writeSector (fs : Fatfs) (fp : Fil) : Fatfs × Fil × Except Round Nat :=
  let (fs, clst) := if csect fs fp = 0 then writeCluster fs fp else (fs, fp.clust)
  if csect fs fp = 0 ∧ clst = 0 then (fs, fp, .error .full)
  else if csect fs fp = 0 ∧ clst = 1 then (fs, fp, .error (.failed .intErr))
  else if csect fs fp = 0 ∧ clst = noSector then (fs, fp, .error (.failed .diskErr))
  else
    let sclust := if csect fs fp = 0 ∧ fp.sclust = 0 then clst else fp.sclust
    let (fs, fp, res) := flush fs { fp with clust := clst, sclust := sclust }
    if res ≠ .ok then (fs, fp, .error (.failed res))
    else
      let sect := clust2sect fs.toGeometry fp.clust
      (fs, fp, if sect = 0 then .error (.failed .intErr) else .ok (sect + csect fs fp))

/-- Write whole sectors directly, and to the buffer if it has one of them. -/
def writeDirect (fs : Fatfs) (fp : Fil) (wbuff : Memory) (bw btw sect : Nat) : Fatfs × Fil × Round :=
  let cc := wholeSectors fs fp btw
  match fs.drive.writeSpan fs.ssize sect cc fun a => wbuff (bw + a) with
  | none => (fs, fp, .failed .diskErr)
  | some drive =>
    let fs := { fs with drive := drive }
    if sect ≤ fp.sect ∧ fp.sect - sect < cc then
      let buf := memCpy fp.buf 0 fs.ssize fun a => wbuff (bw + (fp.sect - sect) * fs.ssize + a)
      (fs, { fp with buf := buf, dirty := false }, .moved (fs.ssize * cc))
    else (fs, fp, .moved (fs.ssize * cc))

/-- Write a part of the sector in the buffer. -/
def writeBuffer (fs : Fatfs) (fp : Fil) (wbuff : Memory) (bw btw : Nat) : Fil × Round :=
  let wcnt := sectorBytes fs fp btw
  let buf := memCpy fp.buf (fp.fptr % fs.ssize) wcnt fun a => wbuff (bw + a)
  ({ fp with buf := buf, dirty := true }, .moved wcnt)

/-- Fill the buffer with the file's data, but on the growing edge. -/
def fillSector (fs : Fatfs) (fp : Fil) (sect : Nat) : Option Fil :=
  if fp.sect ≠ sect ∧ fp.fptr < fp.objsize then
    (fs.drive.read sect).map fun buf => { fp with buf := buf, sect := sect }
  else some { fp with sect := sect }

/-- On a sector boundary, when the sector is known. -/
def writeAligned (fs : Fatfs) (fp : Fil) (wbuff : Memory) (bw btw sect : Nat) : Fatfs × Fil × Round :=
  if btw / fs.ssize ≠ 0 then writeDirect fs fp wbuff bw btw sect
  else
    match fillSector fs fp sect with
    | none => (fs, fp, .failed .diskErr)
    | some fp => (fs, writeBuffer fs fp wbuff bw btw)

def writeRound (fs : Fatfs) (fp : Fil) (wbuff : Memory) (bw btw : Nat) : Fatfs × Fil × Round :=
  if fp.fptr % fs.ssize = 0 then
    match writeSector fs fp with
    | (fs, fp, .error r) => (fs, fp, r)
    | (fs, fp, .ok sect) => writeAligned fs fp wbuff bw btw sect
  else (fs, writeBuffer fs fp wbuff bw btw)

/-- The file pointer behind what was written. -/
def Fil.advance (fp : Fil) (wcnt : Nat) : Fil :=
  let fptr := fp.fptr + wcnt
  { fp with fptr := fptr, objsize := if fptr > fp.objsize then fptr else fp.objsize }

/-- The loop of `f_write`. Every round writes a byte at least. -/
def writeLoop : Nat → Fatfs → Fil → Memory → Nat → Nat → Fatfs × Fil × Nat × FResult
  | 0, fs, fp, _, bw, _ => (fs, { fp with modified := true }, bw, .ok)
  | n + 1, fs, fp, wbuff, bw, btw =>
    if btw = 0 then (fs, { fp with modified := true }, bw, .ok)
    else
      match writeRound fs fp wbuff bw btw with
      | (fs, fp, .moved wcnt) => writeLoop n fs (fp.advance wcnt) wbuff (bw + wcnt) (btw - wcnt)
      | (fs, fp, .full) => (fs, { fp with modified := true }, bw, .ok)
      | (fs, fp, .failed res) => (fs, fp.abort res, bw, res)

def fWrite (fs : Fatfs) (fp : Fil) (wbuff : Memory) (btw : Nat) : Fatfs × Fil × Nat × FResult :=
  if fp.err ≠ .ok then (fs, fp, 0, fp.err)
  else if ¬ fp.write then (fs, fp, 0, .denied)
  else
    -- file size cannot reach 4GiB
    let btw := if (fp.fptr + btw) % 0x100000000 < fp.fptr then 0xffffffff - fp.fptr else btw
    writeLoop btw fs fp wbuff 0 btw

/-! ## `f_lseek` -/

/-- The cluster following loop: `ofs` bytes are left, and `clst` is the cluster. It ends with no cluster when the
volume is full. -/
def seekLoop : Nat → Fatfs → Fil → Nat → Nat → Fatfs × Fil × Nat × Nat × FResult
  | 0, fs, fp, ofs, clst => (fs, fp, ofs, clst, .ok)
  | n + 1, fs, fp, ofs, clst =>
    if ofs > fs.bcs then
      let ofs := ofs - fs.bcs
      let fp := { fp with fptr := fp.fptr + fs.bcs }
      let (fs, clst) := if fp.write then createChain fs clst else getFat fs clst
      if fp.write ∧ clst = 0 then (fs, fp, 0, clst, .ok)
      else if clst = noSector then (fs, fp, ofs, clst, .diskErr)
      else if clst ≤ 1 ∨ fs.nFatent ≤ clst then (fs, fp, ofs, clst, .intErr)
      else seekLoop n fs { fp with clust := clst } ofs clst
    else (fs, fp, ofs, clst, .ok)

/-- Where the seek begins: in the current cluster or at the first one, which is made if there is none. -/
def seekStart (fs : Fatfs) (fp : Fil) (ofs : Nat) : Fatfs × Fil × Nat × Nat × FResult :=
  let ifptr := fp.fptr
  if ifptr > 0 ∧ (ofs - 1) / fs.bcs ≥ (ifptr - 1) / fs.bcs then
    -- the bytes of a cluster are a power of two
    let fptr := (ifptr - 1) / fs.bcs * fs.bcs
    (fs, { fp with fptr := fptr }, ofs - fptr, fp.clust, .ok)
  else
    let fp := { fp with fptr := 0 }
    let (fs, clst) := if fp.sclust = 0 then createChain fs 0 else (fs, fp.sclust)
    if fp.sclust = 0 ∧ clst = 1 then (fs, fp, ofs, clst, .intErr)
    else if fp.sclust = 0 ∧ clst = noSector then (fs, fp, ofs, clst, .diskErr)
    else (fs, { fp with sclust := clst, clust := clst }, ofs, clst, .ok)

/-- The seek to an offset that is not 0, and the sector of the file pointer if that is within one. -/
def seekChain (fs : Fatfs) (fp : Fil) (ofs : Nat) : Fatfs × Fil × Nat × FResult :=
  match seekStart fs fp ofs with
  | (fs, fp, ofs, clst, .ok) =>
    if clst = 0 then (fs, fp, 0, .ok)
    else
      match seekLoop ofs fs fp ofs clst with
      | (fs, fp, ofs, clst, .ok) =>
        let fp := { fp with fptr := fp.fptr + ofs }
        if ofs % fs.ssize = 0 then (fs, fp, 0, .ok)
        else
          let nsect := clust2sect fs.toGeometry clst
          if nsect = 0 then (fs, fp, 0, .intErr) else (fs, fp, nsect + ofs / fs.ssize, .ok)
      | (fs, fp, _, _, res) => (fs, fp, 0, res)
  | (fs, fp, _, _, res) => (fs, fp, 0, res)

def fLseek (fs : Fatfs) (fp : Fil) (ofs : Nat) : Fatfs × Fil × FResult :=
  if fp.err ≠ .ok then (fs, fp, fp.err)
  else
    let ofs := if ofs > fp.objsize ∧ ¬ fp.write then fp.objsize else ofs
    let (fs, fp, nsect, res) := if ofs = 0 then (fs, { fp with fptr := 0 }, 0, .ok) else seekChain fs fp ofs
    if res ≠ .ok then (fs, fp.abort res, res)
    else
      let fp := if fp.fptr > fp.objsize then { fp with objsize := fp.fptr, modified := true } else fp
      if fp.fptr % fs.ssize ≠ 0 then
        let (fs, fp, res) := loadSector fs fp nsect
        if res ≠ .ok then (fs, fp.abort res, res) else (fs, fp, .ok)
      else (fs, fp, .ok)

/-! ## `f_truncate` -/

/-- Remove the clusters behind the file pointer. -/
def truncateChain (fs : Fatfs) (fp : Fil) : Fatfs × Fil × FResult :=
  if fp.fptr = 0 then
    let (fs, res) := removeChain fs fp.sclust 0
    (fs, { fp with sclust := 0 }, res)
  else
    let (fs, ncl) := getFat fs fp.clust
    if ncl = noSector then (fs, fp, .diskErr)
    else if ncl = 1 then (fs, fp, .intErr)
    else if ncl < fs.nFatent then
      let (fs, res) := removeChain fs ncl fp.clust
      (fs, fp, res)
    else (fs, fp, .ok)

def fTruncate (fs : Fatfs) (fp : Fil) : Fatfs × Fil × FResult :=
  if fp.err ≠ .ok then (fs, fp, fp.err)
  else if ¬ fp.write then (fs, fp, .denied)
  else if fp.objsize > fp.fptr then
    let (fs, fp, res) := truncateChain fs fp
    let fp := { fp with objsize := fp.fptr, modified := true }
    let (fs, fp, res) := if res = .ok then flush fs fp else (fs, fp, res)
    if res ≠ .ok then (fs, fp.abort res, res) else (fs, fp, .ok)
  else (fs, fp, .ok)

/-! ## `f_sync` -/

/-- The FSInfo sector. -/
def Fatfs.fsInfo (fs : Fatfs) : Memory :=
  let win := stWord (fill fs.win 0 fs.ssize 0) 510 0xaa55
  let win := stDword win 0 0x41615252
  let win := stDword win 484 0x61417272
  stDword (stDword win 488 fs.freeClst) 492 fs.lastClst

/-- `disk_ioctl` for `CTRL_SYNC` always succeeds. -/
def syncFs (fs : Fatfs) : Fatfs × FResult :=
  let (fs, res) := syncWindow fs
  if res = .ok then
    if fs.fsType = .fat32 ∧ fs.fsiFlag = 1 then
      let sect := fs.volbase + 1
      let win := fs.fsInfo
      -- the result of this write is dropped
      let drive := if fs.drive.bad sect then fs.drive else fs.drive.write sect win
      ({ fs with win := win, winsect := sect, drive := drive, fsiFlag := 0 }, .ok)
    else (fs, .ok)
  else (fs, res)

def ldClust (g : Geometry) (m : Memory) (dir : Nat) : Nat :=
  if g.fsType = .fat32 then ldWord m (dir + 26) ||| ldWord m (dir + 20) <<< 16 else ldWord m (dir + 26)

def stClust (g : Geometry) (m : Memory) (dir cl : Nat) : Memory :=
  let m := stWord m (dir + 26) cl
  if g.fsType = .fat32 then stWord m (dir + 20) (cl >>> 16) else m

/-- The directory entry of a file that was changed at the time `tm`. -/
def Fil.entry (fp : Fil) (g : Geometry) (m : Memory) (tm : Nat) : Memory :=
  let dir := fp.dirPtr
  let m := Function.update m (dir + 11) (m (dir + 11) ||| (0x20 : UInt8))
  let m := stClust g m dir fp.sclust
  let m := stDword m (dir + 28) fp.objsize
  let m := stDword m (dir + 22) tm
  stWord m (dir + 18) 0

def fSync (fs : Fatfs) (fp : Fil) (tm : Nat) : Fatfs × Fil × FResult :=
  if fp.modified then
    match flush fs fp with
    | (fs, fp, .ok) =>
      let (fs, res) := moveWindow fs fp.dirSect
      if res = .ok then
        let (fs, res) := syncFs (fs.edit (fp.entry fs.toGeometry fs.win tm))
        (fs, { fp with modified := false }, res)
      else (fs, fp, res)
    | (fs, fp, res) => (fs, fp, res)
  else (fs, fp, .ok)

end ThyristorController.Fat
