import Nt365.Library.Linked
import Nt365.Library.RingWindow
import Mathlib.Data.List.Perm.Basic

/-!
# Virtqueues

`VIRTIO/RING.C` shares a split ring with a device. A request is a chain of descriptors; the driver
makes its head available in one ring, and the device returns it in the other, in its own order.
Free descriptors are linked by the same field as chains.

## The model

Descriptor tables and rings are functions of the index. `u16` fields are natural numbers, and
indices run modulo `2 ^ 16`. A cookie is an address, with `NULL` as `0`. The walk of
`VringDetachChain` has as many steps as there are descriptors: a longer one never ends.

The device reads `Avail->Idx` when it likes and takes the entries up to the index that it last saw;
it holds what it took until it returns it.
-/

namespace Nt365.Virtio

open Nt365.Library

/-- `VRING_DESC`. -/
structure VringDesc where
  addr : ℕ
  len : ℕ
  flags : ℕ
  next : ℕ

/-- `VRING_USED_ELEM`. -/
structure VringUsedElem where
  id : ℕ
  len : ℕ

/-- `VIRTQ_DESC_INFO`. -/
structure VirtqDescInfo where
  cookie : ℕ
  descCount : ℕ

/-- `VIRTIO_SG_SEG`. -/
structure VirtioSgSeg where
  paddr : ℕ
  len : ℕ

/-- `VIRTQUEUE_INTERNAL`, with the ring. -/
structure Virtqueue where
  num : ℕ
  desc : ℕ → VringDesc
  availRing : ℕ → ℕ
  availIdx : ℕ
  usedRing : ℕ → VringUsedElem
  usedIdx : ℕ
  descAvail : ℕ
  headFreeDesc : ℕ
  lastUsedDescIdx : ℕ
  descInfo : ℕ → VirtqDescInfo

inductive Status where
  | success
  | invalidParameter
  | deviceBusy
  deriving DecidableEq

/-- `VIRTQUEUE_END_OF_LIST`. -/
def virtqueueEndOfList : ℕ := 0xFFFF

/-- `VRING_DESC_F_NEXT`. -/
def vringDescFNext : ℕ := 1

/-- `VRING_DESC_F_WRITE`. -/
def vringDescFWrite : ℕ := 2

/-- `VringInitFreeList`. -/
def vringInitFreeList (vqi : Virtqueue) (num : ℕ) : Virtqueue :=
  { vqi with
    descAvail := num
    headFreeDesc := 0
    lastUsedDescIdx := 0
    desc := fun i =>
      { vqi.desc i with next := if i < num - 1 then i + 1 else if i = num - 1 then virtqueueEndOfList else (vqi.desc i).next } }

/-- `VirtqCreate`, once both allocations have succeeded and been zeroed. -/
def virtqCreate (nrDescs : ℕ) : Virtqueue :=
  vringInitFreeList ⟨nrDescs, fun _ => ⟨0, 0, 0, 0⟩, fun _ => 0, 0, fun _ => ⟨0, 0⟩, 0, 0, 0, 0, fun _ => ⟨0, 0⟩⟩ nrDescs

namespace Virtqueue

variable (vqi : Virtqueue)

/-- `VirtqHasData`. -/
def virtqHasData : Bool := vqi.lastUsedDescIdx != vqi.usedIdx

/-- `VringPushAvail`. -/
def vringPushAvail (headIdx : ℕ) : Virtqueue :=
  { vqi with
    availRing := Function.update vqi.availRing (vqi.availIdx &&& (vqi.num - 1)) headIdx
    availIdx := u16 (vqi.availIdx + 1) }

/-- The descriptor of one segment, in place of a free one. -/
def segDesc (sg : List VirtioSgSeg) (readBufs total i : ℕ) (desc : VringDesc) : VringDesc :=
  let seg := sg.getD i ⟨0, 0⟩
  let flags := 0
  let flags := if readBufs ≤ i then flags ||| vringDescFWrite else flags
  let flags := if i < total - 1 then flags ||| vringDescFNext else flags
  { desc with addr := seg.paddr, len := seg.len, flags := flags }

/-- The loop of `VirtqEnqueue`, with the number of segments that are still to be written. -/
def fillLoop (sg : List VirtioSgSeg) (readBufs total : ℕ) : ℕ → ℕ → ℕ → (ℕ → VringDesc) → (ℕ → VringDesc) × ℕ
  | 0, _, idx, desc => (desc, idx)
  | n + 1, i, idx, desc =>
    let d := segDesc sg readBufs total i (desc idx)
    fillLoop sg readBufs total n (i + 1) d.next (Function.update desc idx d)

/-- `VirtqEnqueue`; the length of the list is its `NumSegs`. -/
def virtqEnqueue (cookie : ℕ) (sg : List VirtioSgSeg) (readBufs writeBufs : ℕ) : Status × Virtqueue :=
  let total := readBufs + writeBufs
  if total < 1 ∨ total > vqi.num then (.invalidParameter, vqi)
  else if vqi.descAvail < total then (.deviceBusy, vqi)
  else if sg.length < total then (.invalidParameter, vqi)
  else
    let head := vqi.headFreeDesc
    let r := fillLoop sg readBufs total total 0 head vqi.desc
    let vqi :=
      { vqi with
        descInfo := Function.update vqi.descInfo head ⟨cookie, u16 total⟩
        desc := r.1
        headFreeDesc := r.2
        descAvail := u16 (vqi.descAvail + 65536 - u16 total) }
    (.success, vqi.vringPushAvail head)

/-- The walk of `VringDetachChain` to the last descriptor, with `DescCount`. -/
def detachLoop (desc : ℕ → VringDesc) : ℕ → ℕ → ℕ → Option (ℕ × ℕ)
  | 0, _, _ => none
  | fuel + 1, idx, count =>
    if (desc idx).flags &&& vringDescFNext ≠ 0 then detachLoop desc fuel (desc idx).next (u16 (count + 65535))
      else some (idx, count)

/-- `VringDetachChain`: nothing if its walk does not end. -/
def vringDetachChain (headIdx : ℕ) : Option Virtqueue :=
  let info := vqi.descInfo headIdx
  match detachLoop vqi.desc vqi.num headIdx (u16 (info.descCount + 65535)) with
  | none => none
  | some (last, count) =>
    some
      { vqi with
        descAvail := u16 (vqi.descAvail + info.descCount)
        descInfo := Function.update vqi.descInfo headIdx { info with descCount := count }
        desc := Function.update vqi.desc last { vqi.desc last with next := vqi.headFreeDesc }
        headFreeDesc := headIdx }

/-- The element that `VirtqDequeue` reads. -/
def nextUsed : VringUsedElem := vqi.usedRing (vqi.lastUsedDescIdx &&& (vqi.num - 1))

/-- `VirtqDequeue`: the cookie and the length, or `STATUS_NO_MORE_ENTRIES`; nothing if it does not
return. -/
def virtqDequeue : Option (Option (ℕ × ℕ) × Virtqueue) :=
  if !vqi.virtqHasData then some (none, vqi)
  else
    let elem := vqi.nextUsed
    let headIdx := u16 elem.id
    let cookie := (vqi.descInfo headIdx).cookie
    let vqi := { vqi with descInfo := Function.update vqi.descInfo headIdx { vqi.descInfo headIdx with cookie := 0 } }
    match vqi.vringDetachChain headIdx with
    | none => none
    | some vqi => some (some (cookie, elem.len), { vqi with lastUsedDescIdx := u16 (vqi.lastUsedDescIdx + 1) })

/-- Where a descriptor is linked to. -/
def next (i : ℕ) : ℕ := (vqi.desc i).next

end Virtqueue

/-! ### The driver and the device -/

/-- A request that was enqueued, with the descriptors as they were written. -/
structure Request where
  ticket : ℕ
  head : ℕ
  chain : List ℕ
  cookie : ℕ
  segs : List VirtioSgSeg
  readBufs : ℕ
  table : ℕ → VringDesc

/-- What the device knows: where it takes entries, the index that it last saw, and the heads that it
took and has not returned. -/
structure Device where
  nextAvail : ℕ
  seenAvail : ℕ
  pending : List ℕ

/-- The queue and the device, with the requests so far: all that were enqueued, those that are
outstanding, those that were dequeued, and what `VirtqDequeue` returned. -/
structure World where
  vq : Virtqueue
  device : Device
  enqueued : List Request
  outstanding : List Request
  returned : List Request
  results : List (ℕ × ℕ)

inductive Action where
  | enqueue (cookie : ℕ) (sg : List VirtioSgSeg) (readBufs writeBufs : ℕ)
  | dequeue
  /-- The device reads `Avail->Idx`. -/
  | observe
  /-- The device takes the next entry up to the index that it saw. -/
  | fetch
  /-- The device returns a head that it holds. -/
  | complete (head len : ℕ)

def start (num : ℕ) : World := ⟨virtqCreate num, ⟨0, 0, []⟩, [], [], [], []⟩

namespace World

variable (w : World)

def enqueue (cookie : ℕ) (sg : List VirtioSgSeg) (readBufs writeBufs : ℕ) : World :=
  let r := w.vq.virtqEnqueue cookie sg readBufs writeBufs
  match r.1 with
  | .success =>
    let total := readBufs + writeBufs
    let request : Request :=
      ⟨w.enqueued.length, w.vq.headFreeDesc, visit w.vq.next total w.vq.headFreeDesc, cookie, sg.take total, readBufs, r.2.desc⟩
    { w with vq := r.2, enqueued := w.enqueued ++ [request], outstanding := request :: w.outstanding }
  | _ => { w with vq := r.2 }

/-- The request with the head that the device returned is no longer outstanding. -/
def dequeue : Option World :=
  match w.vq.virtqDequeue with
  | none => none
  | some (none, vq) => some { w with vq := vq }
  | some (some result, vq) =>
    let head := u16 w.vq.nextUsed.id
    some
      { w with
        vq := vq
        outstanding := w.outstanding.filter (·.head ≠ head)
        returned := w.returned ++ w.outstanding.filter (·.head = head)
        results := w.results ++ [result] }

/-- One call or one step of a conforming device; nothing if the device may not take it. -/
def step : Action → Option World
  | .enqueue cookie sg readBufs writeBufs => some (w.enqueue cookie sg readBufs writeBufs)
  | .dequeue => w.dequeue
  | .observe => some { w with device := { w.device with seenAvail := w.vq.availIdx } }
  | .fetch =>
    if w.device.nextAvail = w.device.seenAvail then none
    else
      let head := w.vq.availRing (w.device.nextAvail &&& (w.vq.num - 1))
      some { w with device := { w.device with nextAvail := u16 (w.device.nextAvail + 1), pending := w.device.pending ++ [head] } }
  | .complete head len =>
    if head ∈ w.device.pending then
      some
        { w with
          vq :=
            { w.vq with
              usedRing := Function.update w.vq.usedRing (w.vq.usedIdx &&& (w.vq.num - 1)) ⟨head, len⟩
              usedIdx := u16 (w.vq.usedIdx + 1) }
          device := { w.device with pending := w.device.pending.erase head } }
    else none

def run : World → List Action → Option World
  | w, [] => some w
  | w, a :: actions => (w.step a).bind fun w => w.run actions

/-- The heads that were made available and that the device has not taken. -/
def unfetched : List ℕ := window w.vq.num w.vq.availRing w.device.nextAvail w.vq.availIdx

/-- The heads that the device returned and that were not dequeued. -/
def unread : List ℕ := (window w.vq.num w.vq.usedRing w.vq.lastUsedDescIdx w.vq.usedIdx).map VringUsedElem.id

end World

/-- The descriptors of a request: they are linked, and each describes its segment. -/
structure Request.Describes (r : Request) (desc : ℕ → VringDesc) : Prop where
  linked : ∃ t, Linked (fun i => (desc i).next) r.head r.chain t
  segment : ∀ k x, r.chain[k]? = some x →
    r.segs[k]? = some ⟨(desc x).addr, (desc x).len⟩ ∧
      (desc x).flags = (if r.readBufs ≤ k then vringDescFWrite else 0) + (if k + 1 < r.chain.length then vringDescFNext else 0)
  kept : ∀ x ∈ r.chain, desc x = r.table x

/-- **The books of a queue.** -/
structure Bookkeeping (w : World) : Prop where
  /-- The free list and the outstanding chains partition the descriptors. -/
  partition : ∃ free, Linked w.vq.next w.vq.headFreeDesc free virtqueueEndOfList ∧ free.length = w.vq.descAvail ∧
    (free ++ w.outstanding.flatMap Request.chain).Perm (List.range w.vq.num)
  describes : ∀ r ∈ w.outstanding, r.chain ≠ [] ∧ r.Describes w.vq.desc
  /-- Each outstanding head is in one place. -/
  heads : (w.outstanding.map Request.head).Perm (w.unfetched ++ w.device.pending ++ w.unread)
  /-- Each request is outstanding or was dequeued, once. -/
  requests : (w.returned ++ w.outstanding).Perm w.enqueued
  tickets : w.enqueued.map Request.ticket = List.range w.enqueued.length
  cookies : w.results.map Prod.fst = w.returned.map Request.cookie

end Nt365.Virtio
