import Nt365.Virtio.Ring
import Mathlib.Data.List.Dedup
import Mathlib.Algebra.Order.Group.Nat

/-!
# The books of a virtqueue

Every run of enqueues, dequeues and device steps keeps `Bookkeeping` (`run_inv`). The invariant adds
what the calls rely on: the side table of each outstanding head, and where the indices are.
-/

namespace Nt365.Virtio

open Nt365.Library List Function

/-! ### Chains -/

theorem segDesc_flags (sg : List VirtioSgSeg) (readBufs total i : ℕ) (d : VringDesc) :
    (Virtqueue.segDesc sg readBufs total i d).flags =
      (if readBufs ≤ i then vringDescFWrite else 0) + (if i + 1 < total then vringDescFNext else 0) := by
  simp only [Virtqueue.segDesc, show (i < total - 1) = (i + 1 < total) from propext (by omega)]
  split <;> split <;> rfl

theorem flags_and_next (p q : Prop) [Decidable p] [Decidable q] :
    ((if p then vringDescFWrite else 0) + (if q then vringDescFNext else 0)) &&& vringDescFNext ≠ 0 ↔ q := by
  by_cases hp : p <;> by_cases hq : q <;> simp [hp, hq, vringDescFWrite, vringDescFNext]

variable {t : ℕ} {desc : ℕ → VringDesc} {r : Request}

/-- The loop writes the free places of a chain, and leaves at the place after it. -/
theorem fillLoop_spec (sg : List VirtioSgSeg) (readBufs total : ℕ) {idx : ℕ} (i : ℕ) {chain : List ℕ}
    (hl : Linked (fun j => (desc j).next) idx chain t) (hnd : chain.Nodup) :
    (Virtqueue.fillLoop sg readBufs total chain.length i idx desc).2 = t ∧
      (∀ j, j ∉ chain → (Virtqueue.fillLoop sg readBufs total chain.length i idx desc).1 j = desc j) ∧
      ∀ k x, chain[k]? = some x → (Virtqueue.fillLoop sg readBufs total chain.length i idx desc).1 x =
        Virtqueue.segDesc sg readBufs total (i + k) (desc x) := by
  induction chain generalizing i idx desc with
  | nil => exact ⟨hl, fun _ _ => rfl, fun k x hx => by simp at hx⟩
  | cons x chain ih =>
    obtain ⟨rfl, hrest⟩ := hl
    obtain ⟨hnotin, hnd⟩ := nodup_cons.mp hnd
    have hne : ∀ y ∈ chain, y ≠ idx := fun y hy => ne_of_mem_of_not_mem hy hnotin
    have hlinked : Linked (fun j => (Function.update desc idx (Virtqueue.segDesc sg readBufs total i (desc idx)) j).next)
        (desc idx).next chain t := hrest.congr fun y hy => by rw [update_of_ne (hne y hy)]
    obtain ⟨hlast, hother, hwrite⟩ := ih (i + 1) hlinked hnd
    refine ⟨hlast, fun j hj => ?_, fun k y hy => ?_⟩
    · rw [mem_cons, not_or] at hj
      exact (hother j hj.2).trans (update_of_ne hj.1 _ _)
    · cases k with
      | zero =>
        obtain rfl : idx = y := by simpa using hy
        exact (hother idx hnotin).trans (update_self _ _ _)
      | succ k =>
        rw [getElem?_cons_succ] at hy
        rw [show i + (k + 1) = i + 1 + k by omega]
        refine (hwrite k y hy).trans ?_
        rw [update_of_ne (hne y (mem_of_getElem? hy))]

theorem u16_pred {n : ℕ} (hpos : 0 < n) (hlt : n < 65536) : u16 (n + 65535) = n - 1 := by
  unfold u16
  omega

theorem detachLoop_spec {h x : ℕ} {xs : List ℕ} (hl : Linked (fun j => (desc j).next) h (xs ++ [x]) t)
    (hnext : ∀ y ∈ xs, (desc y).flags &&& vringDescFNext ≠ 0) (hlast : (desc x).flags &&& vringDescFNext = 0) {fuel count : ℕ}
    (hfuel : xs.length < fuel) (hcount : xs.length ≤ count) (hlt : count < 65536) :
    Virtqueue.detachLoop desc fuel h count = some (x, count - xs.length) := by
  induction xs generalizing h fuel count with
  | nil =>
    obtain ⟨fuel, rfl⟩ := Nat.exists_eq_succ_of_ne_zero (Nat.ne_of_gt hfuel)
    obtain ⟨rfl, -⟩ := hl
    rw [Virtqueue.detachLoop, if_neg (not_not.mpr hlast)]
    rfl
  | cons y xs ih =>
    obtain ⟨fuel, rfl⟩ := Nat.exists_eq_succ_of_ne_zero (Nat.ne_of_gt (Nat.zero_lt_of_lt hfuel))
    obtain ⟨rfl, hrest⟩ := hl
    rw [length_cons] at hfuel hcount
    have hrec := ih hrest (fun z hz => hnext z (mem_cons_of_mem _ hz)) (show xs.length < fuel by omega)
      (show xs.length ≤ count - 1 by omega) (by omega)
    rw [Virtqueue.detachLoop, if_pos (hnext h mem_cons_self), u16_pred (by omega) hlt, hrec, length_cons, Nat.sub_sub,
      Nat.add_comm 1]

theorem Request.Describes.congr {desc' : ℕ → VringDesc} (h : r.Describes desc)
    (heq : ∀ x ∈ r.chain, desc' x = desc x) : r.Describes desc' := by
  obtain ⟨t, hl⟩ := h.linked
  refine ⟨⟨t, hl.congr fun x hx => congrArg VringDesc.next (heq x hx)⟩, fun k x hx => ?_, fun x hx => ?_⟩
  · rw [heq x (mem_of_getElem? hx)]
    exact h.segment k x hx
  · rw [heq x hx]
    exact h.kept x hx

theorem Request.Describes.head_mem (h : r.Describes desc) (hne : r.chain ≠ []) : r.head ∈ r.chain := by
  obtain ⟨t, hl⟩ := h.linked
  cases hc : r.chain with
  | nil => exact absurd hc hne
  | cons x xs =>
    rw [hc] at hl
    rw [hl.1]
    exact mem_cons_self

theorem Request.Describes.detachLoop (h : r.Describes desc) {xs : List ℕ} {x : ℕ}
    (hchain : r.chain = xs ++ [x]) (fuel : ℕ) (hfuel : xs.length < fuel) (hlt : xs.length < 65536) :
    Virtqueue.detachLoop desc fuel r.head xs.length = some (x, 0) := by
  obtain ⟨t, hl⟩ := h.linked
  rw [hchain] at hl
  have hlen : r.chain.length = xs.length + 1 := by simp [hchain]
  have hnext : ∀ y ∈ xs, (desc y).flags &&& vringDescFNext ≠ 0 := by
    intro y hy
    obtain ⟨k, hk, hky⟩ := mem_iff_getElem.mp hy
    have hseg := (h.segment k y (by rw [hchain, getElem?_append_left hk, getElem?_eq_getElem hk, hky])).2
    rw [hseg, flags_and_next, hlen]
    omega
  have hlast : (desc x).flags &&& vringDescFNext = 0 := by
    have hseg := (h.segment xs.length x (by simp [hchain])).2
    rw [← not_not (a := _ = _), hseg]
    exact (flags_and_next _ _).not.mpr (by omega)
  rw [detachLoop_spec hl hnext hlast hfuel (le_refl _) hlt, Nat.sub_self]

/-! ### The invariant -/

/-- `Bookkeeping` with its free list, and what the calls rely on. -/
structure Inv (e : ℕ) (w : World) (free : List ℕ) : Prop where
  exponent : e ≤ 15
  num : w.vq.num = 2 ^ e
  linked : Linked w.vq.next w.vq.headFreeDesc free virtqueueEndOfList
  descAvail : w.vq.descAvail = free.length
  perm : (free ++ w.outstanding.flatMap Request.chain).Perm (List.range w.vq.num)
  nonempty : ∀ r ∈ w.outstanding, r.chain ≠ []
  describes : ∀ r ∈ w.outstanding, r.Describes w.vq.desc
  info : ∀ r ∈ w.outstanding, w.vq.descInfo r.head = ⟨r.cookie, r.chain.length⟩
  heads : (w.outstanding.map Request.head).Perm (w.unfetched ++ w.device.pending ++ w.unread)
  requests : (w.returned ++ w.outstanding).Perm w.enqueued
  tickets : w.enqueued.map Request.ticket = List.range w.enqueued.length
  cookies : w.results.map Prod.fst = w.returned.map Request.cookie
  availIdx : w.vq.availIdx < 65536
  nextAvail : w.device.nextAvail < 65536
  seenAvail : w.device.seenAvail < 65536
  usedIdx : w.vq.usedIdx < 65536
  lastUsed : w.vq.lastUsedDescIdx < 65536
  seen : pendingCount w.device.nextAvail w.device.seenAvail ≤ pendingCount w.device.nextAvail w.vq.availIdx

namespace Inv

variable {e : ℕ} {w : World} {free : List ℕ}

section

variable (h : Inv e w free)

include h

theorem bookkeeping : Bookkeeping w :=
  ⟨⟨free, h.linked, h.descAvail.symm, h.perm⟩, fun r hr => ⟨h.nonempty r hr, h.describes r hr⟩, h.heads, h.requests, h.tickets,
    h.cookies⟩

theorem dvd : w.vq.num ∣ 32768 := by
  rw [h.num]
  exact pow_dvd_pow 2 h.exponent

theorem mask (n : ℕ) : n &&& (w.vq.num - 1) = n % w.vq.num := by
  rw [h.num]
  exact Nat.and_two_pow_sub_one_eq_mod n _

theorem num_le : w.vq.num ≤ 32768 := Nat.le_of_dvd (by decide) h.dvd

theorem nodup : (free ++ w.outstanding.flatMap Request.chain).Nodup := h.perm.nodup_iff.mpr nodup_range

theorem head_mem {r : Request} (hr : r ∈ w.outstanding) : r.head ∈ r.chain :=
  (h.describes r hr).head_mem (h.nonempty r hr)

end

theorem length_le {rs : List Request} (h : ∀ r ∈ rs, r.chain ≠ []) : rs.length ≤ (rs.flatMap Request.chain).length := by
  induction rs with
  | nil => exact Nat.zero_le _
  | cons r rs ih =>
    have hr := length_pos_of_ne_nil (h r mem_cons_self)
    have hrs := ih fun r' hr' => h r' (mem_cons_of_mem _ hr')
    rw [flatMap_cons, length_append, length_cons]
    omega

theorem capacity (h : Inv e w free) : w.unfetched.length + w.device.pending.length + w.unread.length + free.length ≤ w.vq.num := by
  have hheads := h.heads.length_eq
  have hperm := h.perm.length_eq
  have hlen := length_le h.nonempty
  simp only [length_append, length_map, length_range] at hheads hperm
  omega

theorem unfetched_length : w.unfetched.length = pendingCount w.device.nextAvail w.vq.availIdx := by
  rw [World.unfetched, length_window]

theorem unread_length : w.unread.length = pendingCount w.vq.lastUsedDescIdx w.vq.usedIdx := by
  rw [World.unread, length_map, length_window]

theorem heads_nodup (h : Inv e w free) : (w.outstanding.map Request.head).Nodup := by
  obtain ⟨-, hpair⟩ := nodup_flatMap.mp (nodup_append.mp h.nodup).2.1
  rw [List.Nodup, pairwise_map]
  refine hpair.imp_of_mem fun {r s} hr hs hdisj heq => ?_
  exact hdisj (h.head_mem hr) (heq ▸ h.head_mem hs)

end Inv

theorem filter_head {pre post : List Request} (hnd : ((pre ++ r :: post).map Request.head).Nodup) :
    (pre ++ r :: post).filter (fun s => decide (s.head ≠ r.head)) = pre ++ post ∧
      (pre ++ r :: post).filter (fun s => decide (s.head = r.head)) = [r] := by
  rw [map_append, map_cons, nodup_middle, nodup_cons, ← map_append] at hnd
  obtain ⟨hpre, hpost⟩ : (∀ s ∈ pre, s.head ≠ r.head) ∧ ∀ s ∈ post, s.head ≠ r.head :=
    forall_mem_append.mp fun s hs heq => hnd.1 (heq ▸ mem_map_of_mem hs)
  simp only [filter_append, filter_cons, ne_eq, not_true_eq_false, decide_false, decide_true]
  constructor
  · rw [filter_eq_self.mpr fun s hs => decide_eq_true (hpre s hs), if_neg Bool.false_ne_true,
      filter_eq_self.mpr fun s hs => decide_eq_true (hpost s hs)]
  · rw [filter_eq_nil_iff.mpr fun s hs => by simpa using hpre s hs, if_pos trivial,
      filter_eq_nil_iff.mpr fun s hs => by simpa using hpost s hs, nil_append]

/-! ### Steps -/

section Enqueue

variable {vqi : Virtqueue} {cookie : ℕ} {sg : List VirtioSgSeg} {readBufs writeBufs : ℕ}

theorem virtqEnqueue_success_iff :
    (vqi.virtqEnqueue cookie sg readBufs writeBufs).1 = .success ↔
      1 ≤ readBufs + writeBufs ∧ readBufs + writeBufs ≤ vqi.num ∧ readBufs + writeBufs ≤ vqi.descAvail ∧
        readBufs + writeBufs ≤ sg.length := by
  simp only [Virtqueue.virtqEnqueue]
  split_ifs with hcount hbusy hshort
  · simp only [false_iff]
    omega
  · simp only [false_iff]
    omega
  · simp only [false_iff]
    omega
  · simp only [true_iff]
    omega

theorem virtqEnqueue_fail (h : (vqi.virtqEnqueue cookie sg readBufs writeBufs).1 ≠ .success) :
    (vqi.virtqEnqueue cookie sg readBufs writeBufs).2 = vqi := by
  simp only [Virtqueue.virtqEnqueue] at h ⊢
  split_ifs with hcount hbusy hshort
  · rfl
  · rfl
  · rfl
  · rw [if_neg hcount, if_neg hbusy, if_neg hshort] at h
    exact absurd rfl h

theorem virtqEnqueue_success (h : (vqi.virtqEnqueue cookie sg readBufs writeBufs).1 = .success) :
    (vqi.virtqEnqueue cookie sg readBufs writeBufs).2 =
      Virtqueue.vringPushAvail
        { vqi with
          descInfo := Function.update vqi.descInfo vqi.headFreeDesc ⟨cookie, u16 (readBufs + writeBufs)⟩
          desc := (Virtqueue.fillLoop sg readBufs (readBufs + writeBufs) (readBufs + writeBufs) 0 vqi.headFreeDesc vqi.desc).1
          headFreeDesc := (Virtqueue.fillLoop sg readBufs (readBufs + writeBufs)
            (readBufs + writeBufs) 0 vqi.headFreeDesc vqi.desc).2
          descAvail := u16 (vqi.descAvail + 65536 - u16 (readBufs + writeBufs)) } vqi.headFreeDesc := by
  obtain ⟨h1, h2, h3, h4⟩ := virtqEnqueue_success_iff.mp h
  simp only [Virtqueue.virtqEnqueue]
  rw [if_neg (by omega), if_neg (by omega), if_neg (by omega)]

end Enqueue

namespace Inv

variable {e : ℕ} {w : World} {free : List ℕ}

theorem describes_new {sg : List VirtioSgSeg} (readBufs : ℕ) {total : ℕ} {desc : ℕ → VringDesc} {head m : ℕ} {chain : List ℕ}
    (hl : Linked (fun j => (desc j).next) head chain m) (hnd : chain.Nodup) (hlen : chain.length = total) (hsg : total ≤ sg.length)
    (ticket cookie : ℕ) :
    Request.Describes
      ⟨ticket, head, chain, cookie, sg.take total, readBufs, (Virtqueue.fillLoop sg readBufs total total 0 head desc).1⟩
      (Virtqueue.fillLoop sg readBufs total total 0 head desc).1 := by
  obtain ⟨-, -, hwrite⟩ := fillLoop_spec sg readBufs total 0 hl hnd
  rw [hlen] at hwrite
  simp only [Nat.zero_add] at hwrite
  refine ⟨⟨m, hl.congr fun x hx => ?_⟩, fun k x hx => ?_, fun x _ => rfl⟩
  · obtain ⟨k, hk, hkx⟩ := mem_iff_getElem.mp hx
    exact (congrArg VringDesc.next (hwrite k x (by rw [getElem?_eq_getElem hk, hkx]))).trans rfl
  · have hk : k < chain.length := (List.getElem?_eq_some_iff.mp hx).1
    simp only [hwrite k x hx, segDesc_flags, hlen, and_true]
    rw [getElem?_take_of_lt (by omega), getElem?_eq_getElem (by omega), Virtqueue.segDesc,
      getD_eq_getElem _ _ (by omega)]

section

variable (h : Inv e w free)

include h

theorem enqueue (cookie : ℕ) (sg : List VirtioSgSeg) (readBufs writeBufs : ℕ) :
    ∃ free', Inv e (w.enqueue cookie sg readBufs writeBufs) free' := by
  by_cases hs : (w.vq.virtqEnqueue cookie sg readBufs writeBufs).1 = .success
  · obtain ⟨hpos, hnum, havail, hsg⟩ := virtqEnqueue_success_iff.mp hs
    have hvq := virtqEnqueue_success hs
    have hnumle := h.num_le
    rw [World.enqueue]
    simp only [hs, hvq]
    generalize readBufs + writeBufs = total at *
    -- the chain is the beginning of the free list
    obtain ⟨chain, rest, rfl, hlen⟩ : ∃ chain rest, free = chain ++ rest ∧ chain.length = total :=
      ⟨free.take total, free.drop total, (take_append_drop _ _).symm, by rw [length_take, ← h.descAvail]; omega⟩
    obtain ⟨m, hchain, hrest⟩ := linked_append.mp h.linked
    have hnd := h.nodup
    rw [append_assoc] at hnd
    obtain ⟨hnd, -, hdisj⟩ := nodup_append.mp hnd
    obtain ⟨hlast, hother, -⟩ := fillLoop_spec sg readBufs total 0 hchain hnd
    have hvisit := hchain.visit_length
    have hnew := describes_new readBufs hchain hnd hlen hsg w.enqueued.length cookie
    rw [hlen] at hlast hother hvisit
    -- the other places are not in the chain
    have hrest' : ∀ x ∈ rest, x ∉ chain := fun x hx hx' => hdisj x hx' x (mem_append_left _ hx) rfl
    have hout : ∀ r ∈ w.outstanding, ∀ x ∈ r.chain, x ∉ chain := fun r hr x hx hx' =>
      hdisj x hx' x (mem_append_right _ (mem_flatMap.mpr ⟨r, hr, hx⟩)) rfl
    have hne : chain ≠ [] := ne_nil_of_length_pos (by omega)
    have hheadmem : w.vq.headFreeDesc ∈ chain := hnew.head_mem hne
    have hcap := h.capacity
    have hdescAvail := h.descAvail
    rw [unfetched_length, length_append, hlen] at hcap
    rw [length_append, hlen] at hdescAvail
    have hcount : pendingCount w.device.nextAvail w.vq.availIdx < w.vq.num := by omega
    have hwindow := window_push h.dvd h.nextAvail h.availIdx hcount w.vq.availRing w.vq.headFreeDesc
    rw [← h.mask] at hwindow
    refine ⟨rest, ?_⟩
    exact { h with
      linked := by
        simp only [Virtqueue.vringPushAvail, hlast]
        exact hrest.congr fun x hx => congrArg VringDesc.next (hother x (hrest' x hx))
      descAvail := by
        simp only [Virtqueue.vringPushAvail, u16, hdescAvail]
        omega
      perm := by
        simp only [hvisit, flatMap_cons]
        refine List.Perm.trans ?_ h.perm
        rw [← append_assoc]
        exact (perm_append_comm).append_right _
      nonempty := by
        simp only [hvisit, forall_mem_cons]
        exact ⟨hne, h.nonempty⟩
      describes := by
        simp only [hvisit, forall_mem_cons]
        exact ⟨hnew, fun r hr => (h.describes r hr).congr fun x hx => hother x (hout r hr x hx)⟩
      info := by
        simp only [hvisit, forall_mem_cons, Virtqueue.vringPushAvail, update_self, hlen]
        refine ⟨by rw [u16_of_lt (by omega)], fun r hr => ?_⟩
        rw [update_of_ne, h.info r hr]
        rintro heq
        exact hout r hr _ (h.head_mem hr) (heq ▸ hheadmem)
      heads := by
        simp only [World.unfetched, World.unread, Virtqueue.vringPushAvail, map_cons, hwindow, append_assoc,
          singleton_append]
        refine (h.heads.cons w.vq.headFreeDesc).trans ?_
        rw [World.unfetched, World.unread, append_assoc]
        exact perm_middle.symm
      requests := perm_middle.trans ((h.requests.cons _).trans (perm_append_singleton _ _).symm)
      tickets := by
        rw [map_append, h.tickets, length_append, length_singleton, range_succ, map_singleton]
      availIdx := Nat.mod_lt _ (by decide)
      seen := by
        have hpush := pendingCount_push h.nextAvail h.availIdx (by omega)
        exact h.seen.trans (by rw [Virtqueue.vringPushAvail, hpush]; exact Nat.le_succ _) }
  · refine ⟨free, ?_⟩
    have hvq := virtqEnqueue_fail hs
    have hw : w.enqueue cookie sg readBufs writeBufs = w := by
      rw [World.enqueue]
      split
      · exact absurd ‹_› hs
      · rw [hvq]
    rw [hw]
    exact h

theorem exists_unread (hdata : w.vq.lastUsedDescIdx ≠ w.vq.usedIdx) :
    ∃ r ∈ w.outstanding, u16 w.vq.nextUsed.id = r.head ∧ w.vq.nextUsed.id = r.head ∧
      w.unread = r.head ::
        (window w.vq.num w.vq.usedRing (u16 (w.vq.lastUsedDescIdx + 1)) w.vq.usedIdx).map VringUsedElem.id := by
  have hpop := window_pop h.dvd h.lastUsed h.usedIdx hdata w.vq.usedRing
  have hunread : w.unread = w.vq.nextUsed.id ::
      (window w.vq.num w.vq.usedRing (u16 (w.vq.lastUsedDescIdx + 1)) w.vq.usedIdx).map VringUsedElem.id := by
    rw [World.unread, hpop, map_cons, Virtqueue.nextUsed, h.mask]
  have hmem : w.vq.nextUsed.id ∈ w.outstanding.map Request.head := by
    rw [h.heads.mem_iff, hunread]
    exact mem_append_right _ mem_cons_self
  obtain ⟨r, hr, hhead⟩ := mem_map.mp hmem
  have hlt : r.head < w.vq.num := by
    rw [← mem_range, ← h.perm.mem_iff]
    exact mem_append_right _ (mem_flatMap.mpr ⟨r, hr, h.head_mem hr⟩)
  have hnum := h.num_le
  rw [← hhead] at hunread ⊢
  exact ⟨r, hr, u16_of_lt (by omega), rfl, hunread⟩

theorem chain_length_le {r : Request} (hr : r ∈ w.outstanding) : free.length + r.chain.length ≤ w.vq.num := by
  have hperm := h.perm.length_eq
  obtain ⟨pre, post, hsplit⟩ := append_of_mem hr
  rw [hsplit] at hperm
  simp only [length_append, flatMap_append, flatMap_cons, length_range] at hperm
  omega

/-- **Dequeue** returns the cookie of its head, and its chain to the free list. -/
theorem virtqDequeue_eq (hdata : w.vq.lastUsedDescIdx ≠ w.vq.usedIdx) {r : Request} (hr : r ∈ w.outstanding)
    (hhead : u16 w.vq.nextUsed.id = r.head) {xs : List ℕ} {x : ℕ} (hchain : r.chain = xs ++ [x]) :
    w.vq.virtqDequeue = some (some (r.cookie, w.vq.nextUsed.len),
      { w.vq with
        descAvail := free.length + r.chain.length
        descInfo := Function.update w.vq.descInfo r.head ⟨0, 0⟩
        desc := Function.update w.vq.desc x { w.vq.desc x with next := w.vq.headFreeDesc }
        headFreeDesc := r.head
        lastUsedDescIdx := u16 (w.vq.lastUsedDescIdx + 1) }) := by
  have hle := h.chain_length_le hr
  have hnum := h.num_le
  have hlen : r.chain.length = xs.length + 1 := by simp [hchain]
  have hwalk := (h.describes r hr).detachLoop hchain w.vq.num (by omega) (by omega)
  have hcount : u16 (r.chain.length + 65535) = xs.length := by rw [u16_pred (by omega) (by omega), hlen, Nat.add_sub_cancel]
  have hdata' : w.vq.virtqHasData = true := bne_iff_ne.mpr hdata
  simp only [Virtqueue.virtqDequeue, hdata', Bool.not_true, Bool.false_eq_true, if_false, hhead, Virtqueue.vringDetachChain,
    update_self, h.info r hr, hcount, hwalk, update_idem, h.descAvail]
  rw [u16_of_lt (by omega)]

theorem dequeue : ∃ w' free', w.dequeue = some w' ∧ Inv e w' free' := by
  by_cases hdata : w.vq.lastUsedDescIdx = w.vq.usedIdx
  · have hnone : w.vq.virtqDequeue = some (none, w.vq) := by
      rw [Virtqueue.virtqDequeue, if_pos]
      simp [Virtqueue.virtqHasData, hdata]
    refine ⟨w, free, ?_, h⟩
    rw [World.dequeue, hnone]
  · obtain ⟨r, hr, hhead, -, hunread⟩ := h.exists_unread hdata
    obtain ⟨xs, x, hchain⟩ : ∃ xs x, r.chain = xs ++ [x] := ⟨_, _, (dropLast_append_getLast (h.nonempty r hr)).symm⟩
    have hvq := h.virtqDequeue_eq hdata hr hhead hchain
    have hheads := h.heads_nodup
    obtain ⟨pre, post, hsplit⟩ := append_of_mem hr
    rw [hsplit] at hheads
    obtain ⟨hkeep, hmove⟩ := filter_head hheads
    refine ⟨_, r.chain ++ free, by rw [World.dequeue, hvq], ?_⟩
    simp only [hhead, hsplit, hkeep, hmove]
    -- the chain, the free list and the other chains have no place in common
    have hperm : (r.chain ++ free ++ (pre ++ post).flatMap Request.chain).Perm (List.range w.vq.num) := by
      refine List.Perm.trans ?_ h.perm
      simp only [hsplit, flatMap_append, flatMap_cons]
      refine (perm_append_comm.append_right _).trans ?_
      rw [append_assoc]
      exact (perm_append_comm_assoc _ _ _).append_left _
    have hmem : ∀ s ∈ pre ++ post, s ∈ w.outstanding := by
      intro s hs
      rw [hsplit]
      rw [mem_append] at hs
      exact mem_append.mpr (hs.imp_right (mem_cons_of_mem _))
    have hnd := hperm.nodup_iff.mpr nodup_range
    obtain ⟨hnd', -, hdisj⟩ := nodup_append.mp hnd
    have hx : x ∈ r.chain := by simp [hchain]
    have hother : ∀ s ∈ pre ++ post, ∀ y ∈ s.chain, y ∉ r.chain := fun s hs y hy hy' =>
      hdisj y (mem_append_left _ hy') y (mem_flatMap.mpr ⟨s, hs, hy⟩) rfl
    have hxs : x ∉ xs ∧ x ∉ free := by
      rw [hchain, append_assoc, singleton_append, nodup_middle, nodup_cons, mem_append, not_or] at hnd'
      exact hnd'.1
    obtain ⟨t, hlinked⟩ := (h.describes r hr).linked
    rw [hchain] at hlinked
    exact { h with
      linked := by
        rw [hchain]
        refine hlinked.join h.linked hxs.1 hxs.2 (fun y hy => ?_) ?_
        · exact congrArg VringDesc.next (update_of_ne hy _ _)
        · exact congrArg VringDesc.next (update_self (β := fun _ => VringDesc) _ _ _)
      descAvail := by rw [length_append, Nat.add_comm]
      perm := hperm
      nonempty := fun s hs => h.nonempty s (hmem s hs)
      describes := fun s hs => (h.describes s (hmem s hs)).congr fun y hy =>
        update_of_ne (ne_of_mem_of_not_mem hx (hother s hs y hy)).symm _ _
      info := fun s hs =>
        have hhead : s.head ∉ r.chain := hother s hs s.head (h.head_mem (hmem s hs))
        (update_of_ne (ne_of_mem_of_not_mem (h.head_mem hr) hhead).symm _ _).trans (h.info s (hmem s hs))
      heads := by
        have hperm' := h.heads
        rw [hsplit, hunread, map_append, map_cons] at hperm'
        have hcons := perm_middle.symm.trans (hperm'.trans perm_middle)
        rw [map_append]
        exact hcons.cons_inv
      requests := by
        refine List.Perm.trans ?_ h.requests
        rw [hsplit, append_assoc, singleton_append]
        exact perm_middle.symm.append_left _
      cookies := by rw [map_append, map_append, h.cookies, map_singleton, map_singleton]
      lastUsed := Nat.mod_lt _ (by decide) }

theorem observe : Inv e { w with device := { w.device with seenAvail := w.vq.availIdx } } free :=
  { h with seenAvail := h.availIdx, seen := le_refl _ }

theorem fetch (hne : w.device.nextAvail ≠ w.device.seenAvail) :
    Inv e
      { w with
        device :=
          { w.device with
            nextAvail := u16 (w.device.nextAvail + 1)
            pending := w.device.pending ++ [w.vq.availRing (w.device.nextAvail &&& (w.vq.num - 1))] } } free := by
  have hseen := h.seen
  have hpop := pendingCount_pop h.nextAvail h.seenAvail hne
  have hne' : w.device.nextAvail ≠ w.vq.availIdx := by
    intro heq
    rw [hpop, heq, pendingCount_self] at hseen
    exact absurd hseen (Nat.not_succ_le_zero _)
  have hpop' := pendingCount_pop h.nextAvail h.availIdx hne'
  have hwindow := window_pop h.dvd h.nextAvail h.availIdx hne' w.vq.availRing
  exact { h with
    nextAvail := Nat.mod_lt _ (by decide)
    seen := by simp only; omega
    heads := by
      have hheads := h.heads
      rw [World.unfetched, hwindow, ← h.mask, cons_append] at hheads
      refine hheads.trans (List.Perm.append_right _ ?_)
      exact (perm_append_singleton _ _).symm.trans (.of_eq (append_assoc ..)) }

theorem complete {head : ℕ} (hmem : head ∈ w.device.pending) (len : ℕ) :
    Inv e
      { w with
        vq :=
          { w.vq with
            usedRing := Function.update w.vq.usedRing (w.vq.usedIdx &&& (w.vq.num - 1)) ⟨head, len⟩
            usedIdx := u16 (w.vq.usedIdx + 1) }
        device := { w.device with pending := w.device.pending.erase head } } free := by
  have hcap := h.capacity
  have hpos := length_pos_of_mem hmem
  rw [unread_length] at hcap
  have hwindow := window_push h.dvd h.lastUsed h.usedIdx (by omega) w.vq.usedRing ⟨head, len⟩
  rw [← h.mask] at hwindow
  exact { h with
    usedIdx := Nat.mod_lt _ (by decide)
    heads := by
      rw [World.unread, hwindow, map_append, map_singleton, ← append_assoc]
      calc
        (w.outstanding.map Request.head).Perm _ := h.heads
        List.Perm _ (_ ++ head :: w.device.pending.erase head ++ _) := ((perm_cons_erase hmem).append_left _).append_right _
        List.Perm _ (head :: (_ ++ w.device.pending.erase head) ++ _) := perm_middle.append_right _
        List.Perm _ _ := .trans (.of_eq cons_append) (perm_append_singleton _ _).symm }

theorem step {a : Action} {w' : World} (hstep : w.step a = some w') : ∃ free', Inv e w' free' := by
  cases a with
  | enqueue cookie sg readBufs writeBufs =>
    obtain rfl := Option.some.inj hstep
    exact h.enqueue cookie sg readBufs writeBufs
  | dequeue =>
    obtain ⟨w'', free', hw'', hinv⟩ := h.dequeue
    obtain rfl := Option.some.inj (hw''.symm.trans hstep)
    exact ⟨free', hinv⟩
  | observe =>
    obtain rfl := Option.some.inj hstep
    exact ⟨free, h.observe⟩
  | fetch =>
    rw [World.step] at hstep
    split at hstep
    · cases hstep
    · obtain rfl := Option.some.inj hstep
      exact ⟨free, h.fetch ‹_›⟩
  | complete head len =>
    rw [World.step] at hstep
    split at hstep
    · obtain rfl := Option.some.inj hstep
      exact ⟨free, h.complete ‹_› len⟩
    · cases hstep

theorem run {actions : List Action} {w' : World} (hrun : w.run actions = some w') : ∃ free', Inv e w' free' := by
  induction actions generalizing w free with
  | nil =>
    obtain rfl := Option.some.inj hrun
    exact ⟨free, h⟩
  | cons a actions ih =>
    obtain ⟨w₁, hstep, hrest⟩ := Option.bind_eq_some_iff.mp hrun
    obtain ⟨free₁, h₁⟩ := h.step hstep
    exact ih h₁ hrest

end

end Inv

theorem linked_initFreeList {next : ℕ → ℕ} {a n : ℕ} (hnext : ∀ i, i < n → next (a + i) = a + i + 1) (hlast : next (a + n) = t) :
    Linked next a (List.range' a (n + 1)) t := by
  induction n generalizing a with
  | zero => exact ⟨rfl, hlast⟩
  | succ n ih =>
    rw [range'_succ]
    refine ⟨rfl, ?_⟩
    have hhead : next a = a + 1 := hnext 0 (Nat.succ_pos n)
    rw [hhead]
    exact ih (fun i hi => by rw [Nat.add_right_comm, Nat.add_assoc a, hnext (i + 1) (by omega)])
      (by rw [Nat.add_right_comm, Nat.add_assoc a, hlast])

theorem start_inv {e : ℕ} (he : e ≤ 15) : Inv e (start (2 ^ e)) (List.range (2 ^ e)) := by
  have hpos : 0 < 2 ^ e := Nat.two_pow_pos e
  have hzero : 0 < 65536 := by decide
  obtain ⟨n, hn⟩ : ∃ n, 2 ^ e = n + 1 := ⟨2 ^ e - 1, by omega⟩
  exact {
    exponent := he
    num := rfl
    linked := by
      rw [hn, range_eq_range']
      refine linked_initFreeList (n := n) (fun i hi => ?_) ?_
      · simp [start, virtqCreate, vringInitFreeList, Virtqueue.next, hi]
      · simp [start, virtqCreate, vringInitFreeList, Virtqueue.next]
    descAvail := length_range.symm
    perm := by
      rw [start, flatMap_nil, append_nil]
      exact List.Perm.refl _
    nonempty := fun r hr => by cases hr
    describes := fun r hr => by cases hr
    info := fun r hr => by cases hr
    heads := by
      simp only [start, virtqCreate, vringInitFreeList, World.unfetched, World.unread, window_self]
      exact List.Perm.refl _
    requests := List.Perm.refl _
    tickets := rfl
    cookies := rfl
    availIdx := hzero
    nextAvail := hzero
    seenAvail := hzero
    usedIdx := hzero
    lastUsed := hzero
    seen := le_refl _ }

namespace Inv

variable {e : ℕ} {w : World} {free : List ℕ}

/-- The slot that is written next is none of those that the device still has to read. -/
theorem slot_fresh (h : Inv e w free) (havail : 0 < w.vq.descAvail) {k : ℕ} (hk : k < w.unfetched.length) :
    u16 (w.device.nextAvail + k) &&& (w.vq.num - 1) ≠ w.vq.availIdx &&& (w.vq.num - 1) := by
  have hcap := h.capacity
  rw [← h.descAvail] at hcap
  rw [unfetched_length] at hk hcap
  rw [h.mask, h.mask, u16, Nat.mod_mod_of_dvd _ (h.dvd.trans (by decide : 32768 ∣ 65536))]
  exact slot_ne_push h.dvd h.nextAvail h.availIdx (by omega) hk

theorem dequeue_result (h : Inv e w free) :
    (w.unread = [] → w.vq.virtqDequeue = some (none, w.vq)) ∧
      ∀ head rest, w.unread = head :: rest → ∃ r ∈ w.outstanding, r.head = head ∧
        ∃ len vq, w.vq.virtqDequeue = some (some (r.cookie, len), vq) := by
  have hempty : w.unread = [] ↔ w.vq.lastUsedDescIdx = w.vq.usedIdx := by
    rw [World.unread, map_eq_nil_iff, window_eq_nil_iff h.lastUsed h.usedIdx]
  constructor
  · intro hnil
    rw [Virtqueue.virtqDequeue, if_pos]
    simp [Virtqueue.virtqHasData, hempty.mp hnil]
  · intro head rest hcons
    have hdata : w.vq.lastUsedDescIdx ≠ w.vq.usedIdx := fun heq => cons_ne_nil _ _ (hcons.symm.trans (hempty.mpr heq))
    obtain ⟨r, hr, hhead, -, hunread⟩ := h.exists_unread hdata
    have hchain := (dropLast_append_getLast (h.nonempty r hr)).symm
    exact ⟨r, hr, (List.cons.inj (hunread.symm.trans hcons)).1, _, _, h.virtqDequeue_eq hdata hr hhead hchain⟩

theorem drained (h : Inv e w free) (hunfetched : w.unfetched = []) (hpending : w.device.pending = []) (hunread : w.unread = []) :
    w.returned.Perm w.enqueued := by
  have hheads := h.heads
  rw [hunfetched, hpending, hunread] at hheads
  have hnil : w.outstanding = [] := map_eq_nil_iff.mp hheads.eq_nil
  have hrequests := h.requests
  rwa [hnil, append_nil] at hrequests

end Inv

/-- **The virtqueue keeps its books** in every run with a conforming device. An enqueue fails only for
want of descriptors, no slot is written before the device has read it, and a dequeue returns the
cookie of the next head that the device returned. -/
theorem virtqueue_books {e : ℕ} (he : e ≤ 15) {actions : List Action} {w : World} (hrun : (start (2 ^ e)).run actions = some w) :
    Bookkeeping w ∧
    (∀ cookie sg readBufs writeBufs, 1 ≤ readBufs + writeBufs → readBufs + writeBufs ≤ 2 ^ e → readBufs + writeBufs ≤ sg.length →
      ((w.vq.virtqEnqueue cookie sg readBufs writeBufs).1 ≠ .success ↔ w.vq.descAvail < readBufs + writeBufs)) ∧
    (∀ cookie sg readBufs writeBufs, (w.vq.virtqEnqueue cookie sg readBufs writeBufs).1 = .success → ∀ k < w.unfetched.length,
      u16 (w.device.nextAvail + k) &&& (w.vq.num - 1) ≠ w.vq.availIdx &&& (w.vq.num - 1)) ∧
    (w.unread = [] → w.vq.virtqDequeue = some (none, w.vq)) ∧
    (∀ head rest, w.unread = head :: rest → ∃ r ∈ w.outstanding, r.head = head ∧
      ∃ len vq, w.vq.virtqDequeue = some (some (r.cookie, len), vq)) ∧
    (w.unfetched = [] → w.device.pending = [] → w.unread = [] → w.returned.Perm w.enqueued) := by
  obtain ⟨free, h⟩ := (start_inv he).run hrun
  refine ⟨h.bookkeeping, ?_, ?_, h.dequeue_result.1, h.dequeue_result.2, h.drained⟩
  · intro cookie sg readBufs writeBufs hpos hnum hsg
    rw [← h.num] at hnum
    rw [ne_eq, virtqEnqueue_success_iff]
    omega
  · intro cookie sg readBufs writeBufs hs k hk
    obtain ⟨hpos, -, havail, -⟩ := virtqEnqueue_success_iff.mp hs
    exact h.slot_fresh (by omega) hk

/-- Two requests, returned in the other order; the second is dequeued. -/
def twoRequests : List Action :=
  [.enqueue 7 [⟨100, 1⟩, ⟨200, 2⟩] 1 1, .enqueue 8 [⟨300, 3⟩] 0 1, .observe, .fetch, .fetch, .complete 2 3,
    .complete 0 0, .dequeue]

theorem virtqueue_books_twoRequests :
    ∃ w, (start (2 ^ 2)).run twoRequests = some w ∧ w.results = [(8, 3)] ∧ w.vq.descAvail = 2 ∧ Bookkeeping w :=
  have hrun : (start (2 ^ 2)).run twoRequests = some _ := rfl
  ⟨_, hrun, by decide, by decide, (virtqueue_books (by decide) hrun).1⟩

end Nt365.Virtio
