import Mathlib.Data.Rat.Defs
import OpenSqlAny.Library.HashEntries
import OpenSqlAny.PageStores

namespace OpenSqlAny.ApFill

open Library.LittleEndian Library.Histograms Library.HashEntries PageStores

def sectorSize : Nat := 512

def sectorsPerPage : Nat := pageSize / sectorSize

def trailerStart : Nat := 0xFF0

def pureApTypes : List UInt8 := [0x40, 0x43, 0x48, 0x4D]

def learnPurity : Rat := 1

structure ApSectorRecoveryConfidence where
  sectorIndex : Nat
  chosenStep : UInt8
  bestPeak : Nat
  runnerUpPeak : Nat
  bestPeakTied : Bool
  zeroPlaintextCount : Nat
  zeroPlaintextFraction : Rat
  plaintextPeakFraction : Rat
  sectorByteCount : Nat
  deriving DecidableEq, Repr

structure ApPageRecoveryConfidence where
  pageNumber : Nat
  bv : UInt8
  sectors : List ApSectorRecoveryConfidence
  tiedSectorCount : Nat
  deriving DecidableEq, Repr

def bias (pn : Nat) : UInt8 := UInt8.ofNat (pn % 16) / 2 * 4

def apBase (pn si : Nat) (bv : UInt8) : UInt8 := bv + UInt8.ofNat pn + UInt8.ofNat si - bias pn

/-- The product `(i as u8).wrapping_mul(step)`. -/
def strideAt (i : Nat) (step : UInt8) : UInt8 := UInt8.ofNat i * step

def allBytes : List UInt8 := (List.range 256).map UInt8.ofNat

def lastPeak (hist : UInt8 → Nat) : UInt8 := (maxByKey hist allBytes).getD 0

def peakOf (hist : UInt8 → Nat) : Nat := (allBytes.map hist).foldl max 0

def dominantStep (sec : Bytes) : UInt8 :=
  lastPeak (tally ((sec.zip sec.tail).map (fun w => w.2 - w.1)))

def recoverBase (sec : Bytes) (step : UInt8) : UInt8 :=
  lastPeak (tally (sec.mapIdx (fun i b => b - strideAt i step)))

/-- The quotient of two integers below 2^53 is exact enough as a double to be compared with one:
it rounds to one only when it is one. -/
def sectorPurity (sec : Bytes) (base step : UInt8) : Rat :=
  let hits := (sec.mapIdx (fun i b => decide (b = base + strideAt i step))).count true
  (hits : Rat) / (sec.length : Rat)

structure StepSearch where
  bestStep : UInt8
  bestCount : Nat
  runnerUpCount : Nat
  bestPeakTied : Bool
  deriving DecidableEq, Repr

def plainUnder (sec : Bytes) (base step : UInt8) : Bytes :=
  sec.mapIdx (fun i b => b - base - strideAt i step)

def StepSearch.consider (search : StepSearch) (step : UInt8) (peak : Nat) : StepSearch :=
  if peak > search.bestCount then ⟨step, peak, search.bestCount, false⟩
  else
    { search with
      runnerUpCount := max search.runnerUpCount peak
      bestPeakTied := search.bestPeakTied || decide (peak = search.bestCount) }

def searchStep (sec : Bytes) (base : UInt8) : StepSearch :=
  allBytes.foldl (fun search step => search.consider step (peakOf (tally (plainUnder sec base step))))
    ⟨0, 0, 0, false⟩

def recoverStepConfidence (sec : Bytes) (base : UInt8) (sectorIndex : Nat) : ApSectorRecoveryConfidence :=
  let search := searchStep sec base
  let zeroPlaintextCount := (plainUnder sec base search.bestStep).count 0
  { sectorIndex := sectorIndex
    chosenStep := search.bestStep
    bestPeak := search.bestCount
    runnerUpPeak := search.runnerUpCount
    bestPeakTied := search.bestPeakTied
    zeroPlaintextCount := zeroPlaintextCount
    zeroPlaintextFraction := (zeroPlaintextCount : Rat) / (sec.length : Rat)
    plaintextPeakFraction := (search.bestCount : Rat) / (sec.length : Rat)
    sectorByteCount := sec.length }

/-- The bytes written over out: the stream fills no more than out holds. -/
def applyStream (sec : Bytes) (base step : UInt8) (out : Bytes) : Bytes :=
  (plainUnder sec base step).take out.length ++ out.drop sec.length

def dataEnd (si : Nat) : Nat :=
  if si + 1 = sectorsPerPage then trailerStart else si * sectorSize + sectorSize

def sectorOf (bytes : Bytes) (si : Nat) : Bytes := (bytes.take (dataEnd si)).drop (si * sectorSize)

def stepBvMax (sec : Bytes) (offset : UInt8) : UInt8 → Nat :=
  allBytes.foldl
    (fun best step =>
      let hist := tally (sec.mapIdx (fun i b => b - offset - strideAt i step))
      fun bv => if hist bv > best bv then hist bv else best bv)
    (fun _ => 0)

/-- The last sector, which the trailer cuts short, is left out of the score. -/
def scoreBvCandidates (bytes : Bytes) (pn : Nat) (bvScore : UInt8 → Nat) : UInt8 → Nat :=
  (List.range 7).foldl
    (fun score si =>
      let sec := (bytes.take (si * sectorSize + sectorSize)).drop (si * sectorSize)
      let best := stepBvMax sec (UInt8.ofNat pn + UInt8.ofNat si - bias pn)
      fun bv => score bv + best bv)
    bvScore

def sectorVote (bytes : Bytes) (pn si : Nat) : Option UInt8 :=
  let sec := sectorOf bytes si
  let step := dominantStep sec
  let base := recoverBase sec step
  if sectorPurity sec base step < learnPurity then none
  else some (base - UInt8.ofNat pn - UInt8.ofNat si + bias pn)

def pageVotes (bytes : Bytes) (pn : Nat) : List UInt8 :=
  (List.range sectorsPerPage).filterMap (sectorVote bytes pn)

def learnBvForPage (order : HashOrder UInt8 Nat) (bytes : Bytes) (pn : Nat) (ptype : UInt8) : Option UInt8 :=
  if pureApTypes.contains ptype then winner order (pageVotes bytes pn) else none

structure ApModel where
  bvMap : List (Nat × UInt8)
  bv0 : UInt8
  deriving DecidableEq, Repr

/-- Every hash map that learning iterates has an order of its own. -/
structure LearnOrders where
  blocks : HashOrder Nat (List (UInt8 × Nat))
  ballots : Nat → HashOrder UInt8 Nat
  values : HashOrder Nat UInt8

def plainOrders : LearnOrders := ⟨insertionOrder, fun _ => insertionOrder, insertionOrder⟩

def pageCasts (page : Page) : List (Nat × UInt8) :=
  if pureApTypes.contains page.trailer.pageTypeRaw then
    (pageVotes page.bytes page.index).map (fun bv => (page.index / 16, bv))
  else []

def collectVotes (store : PageStore) : List (Nat × List (UInt8 × Nat)) :=
  ballots (store.pages.flatMap pageCasts)

def learnedMap (orders : LearnOrders) (store : PageStore) : List (Nat × UInt8) :=
  rebuild (fun entry => pick (orders.ballots entry.1) entry.2) (orders.blocks.iter (collectVotes store))

def ApModel.learn (orders : LearnOrders) (store : PageStore) : ApModel :=
  let bvMap := learnedMap orders store
  { bvMap := bvMap
    bv0 := (find? 0 bvMap).getD (((orders.values.iter bvMap).head?.map (·.2)).getD 0) }

def ApModel.bvAt (model : ApModel) (bi : Nat) : UInt8 := (find? bi model.bvMap).getD model.bv0

def ApModel.learnedBlockCount (model : ApModel) : Nat := model.bvMap.length

def bestBv (bvScore : UInt8 → Nat) (bv0 : UInt8) : UInt8 := (maxByKey bvScore allBytes).getD bv0

/-- Block numbers are 64-bit, so the page arithmetic wraps. -/
def ApModel.recoverBvForBlock (model : ApModel) (store : PageStore) (bi : Nat) : UInt8 :=
  let pageStart := bi * 16 % 2 ^ 64
  let pageEnd := min ((pageStart + 16) % 2 ^ 64) store.pageCount
  if pageStart ≥ store.pageCount then model.bv0
  else
    let sampleEnd := min pageEnd ((pageStart + 3) % 2 ^ 64)
    let bvScore := (List.range' pageStart (sampleEnd - pageStart)).foldl
      (fun score pn =>
        match store.page pn with
        | .ok page => scoreBvCandidates page.bytes pn score
        | .error _ => score)
      (fun _ => 0)
    bestBv bvScore model.bv0

def ApModel.recoverBvForPage (model : ApModel) (store : PageStore) (pn : Nat) : UInt8 :=
  match store.page pn with
  | .ok page => bestBv (scoreBvCandidates page.bytes pn (fun _ => 0)) model.bv0
  | .error _ => model.bv0

def deobfuscateSector (raw : Bytes) (pn : Nat) (bv : UInt8)
    (state : Bytes × List ApSectorRecoveryConfidence) (si : Nat) :
    Bytes × List ApSectorRecoveryConfidence :=
  let off := si * sectorSize
  let sec := sectorOf raw si
  let base := apBase pn si bv
  let evidence := recoverStepConfidence sec base si
  let window := (state.1.take (dataEnd si)).drop off
  (state.1.take off ++ applyStream sec base evidence.chosenStep window ++ state.1.drop (dataEnd si),
    state.2 ++ [evidence])

def deobfuscateSectors (raw : Bytes) (pn : Nat) (bv : UInt8) :
    Bytes × List ApSectorRecoveryConfidence :=
  (List.range sectorsPerPage).foldl (deobfuscateSector raw pn bv) (List.replicate pageSize 0, [])

/-- None is the failed assertion that the buffer holds a page. -/
def deobfuscateWithBvAndConfidence (raw : Bytes) (pn : Nat) (bv : UInt8) :
    Option (Bytes × ApPageRecoveryConfidence) :=
  if raw.length < pageSize then none
  else
    let state := deobfuscateSectors raw pn bv
    some (state.1.take trailerStart ++ (raw.take pageSize).drop trailerStart,
      { pageNumber := pn
        bv := bv
        sectors := state.2
        tiedSectorCount := (state.2.filter (·.bestPeakTied)).length })

def deobfuscateWithBv (raw : Bytes) (pn : Nat) (bv : UInt8) : Option Bytes :=
  (deobfuscateWithBvAndConfidence raw pn bv).map (·.1)

def ApModel.deobfuscate (model : ApModel) (raw : Bytes) (pn : Nat) : Option Bytes :=
  deobfuscateWithBv raw pn (model.bvAt (pn / 16))

/-- None is a read or an assertion that fails on a buffer shorter than a page. -/
def ApModel.deobfuscateWithStoreAndConfidence (model : ApModel) (order : HashOrder UInt8 Nat)
    (raw : Bytes) (pn : Nat) (store : PageStore) : Option (Bytes × ApPageRecoveryConfidence) :=
  match raw[trailerStart + 2]? with
  | none => none
  | some ptype =>
      deobfuscateWithBvAndConfidence raw pn
        ((learnBvForPage order raw pn ptype).getD (model.recoverBvForPage store pn))

def ApModel.deobfuscateWithStore (model : ApModel) (order : HashOrder UInt8 Nat) (raw : Bytes) (pn : Nat)
    (store : PageStore) : Option Bytes :=
  (model.deobfuscateWithStoreAndConfidence order raw pn store).map (·.1)

end OpenSqlAny.ApFill
