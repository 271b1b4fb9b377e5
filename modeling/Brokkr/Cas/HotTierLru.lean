import Brokkr.Lib.Lru
import Brokkr.Cas.HotTier

/-!
# The hot tier is a least-recently-used cache

The tier of `tiered.rs` against the list cache of `Brokkr.Lib.Lru`: the slots of the list,
in the order of the links, hold the entries of the cache.

* `HotTier.contents` — the entries in the slots of a list.
* `Represents` — the tier holds the given entries and counts their bytes;
  `Represents.get`, `Represents.evictLoop`, `Represents.put` — the operations do what those
  of the list cache do.
* `hotTier_refines_lru` — whole runs.  Without a budget the tier holds nothing, not even
  the empty blob, which the list cache would hold.
-/

namespace Brokkr.Blobs

open List

variable {i idx : ℕ} {b : Bytes}

namespace HotTier

/-- The size of a blob. -/
abbrev blobSize (b : Bytes) : ℕ := b.length

/-- The entries in some slots. -/
def contents (h : HotTier) (order : List ℕ) : List (Digest × Bytes) := order.filterMap h.data

variable {h : HotTier} {order : List ℕ} {d : Digest}

theorem contents_cons {e : Digest × Bytes} (hi : h.data i = some e) (order : List ℕ) :
    h.contents (i :: order) = e :: h.contents order := by
  rw [contents, filterMap_cons_some hi]
  rfl

theorem contents_append (h : HotTier) (l r : List ℕ) :
    h.contents (l ++ r) = h.contents l ++ h.contents r := filterMap_append

theorem contents_congr {h' : HotTier} (hdata : ∀ i ∈ order, h'.data i = h.data i) :
    h'.contents order = h.contents order := filterMap_congr hdata

namespace Good

variable (hg : Good h order)

include hg

theorem data_of_mem (hi : i ∈ order) :
    ∃ d b, h.data i = some (d, b) ∧ h.map.get? d = some i := by
  obtain ⟨s, hs, hmap⟩ := hg.getElem?_of_mem hi
  exact ⟨s.digest, s.bytes, by rw [data, hs]; rfl, hmap⟩

theorem eq_of_data {j : ℕ} {c : Bytes} (hi : i ∈ order) (hj : j ∈ order)
    (hib : h.data i = some (d, b)) (hjc : h.data j = some (d, c)) : i = j := by
  have hmapi := (hg.map d i).2 ⟨hi, b, hib⟩
  have hmapj := (hg.map d j).2 ⟨hj, c, hjc⟩
  rw [hmapi] at hmapj
  exact Option.some.inj hmapj

theorem lookup_contents_none (hd : h.map.get? d = none) :
    (h.contents order).lookup d = none := by
  rw [lookup_eq_none_iff]
  intro e he
  obtain ⟨i, hi, hie⟩ := mem_filterMap.1 he
  rw [bne_iff_ne]
  rintro rfl
  rw [(hg.map e.1 i).2 ⟨hi, e.2, hie⟩] at hd
  cases hd

theorem lookup_contents_some (hidx : idx ∈ order)
    (hb : h.data idx = some (d, b)) : (h.contents order).lookup d = some b := by
  obtain ⟨l, r, rfl⟩ := append_of_mem hidx
  have hnot : idx ∉ l ++ r := (nodup_cons.1 (nodup_middle.1 hg.linked.nodup)).1
  rw [lookup_eq_some_iff]
  refine ⟨h.contents l, h.contents r, ?_, fun e he => ?_⟩
  · rw [contents_append, contents_cons hb]
  obtain ⟨i, hi, hie⟩ := mem_filterMap.1 he
  rw [bne_iff_ne]
  rintro rfl
  have heq := hg.eq_of_data (mem_append_left _ hi) hidx hie hb
  exact hnot (mem_append_left _ (heq ▸ hi))

theorem contents_erase (hidx : idx ∈ order) (hb : h.data idx = some (d, b)) :
    h.contents (order.erase idx) = Lru.remove (h.contents order) d := by
  rw [hg.linked.nodup.erase_eq_filter, contents, filterMap_filter, Lru.remove, contents,
    filter_filterMap]
  refine filterMap_congr fun i hi => ?_
  obtain ⟨e, c, hic, -⟩ := hg.data_of_mem hi
  by_cases hii : i = idx
  · subst hii
    simp [hb, Option.filter]
  have hne : e ≠ d := by
    rintro rfl
    exact hii (hg.eq_of_data hi hidx hic hb)
  simp [hii, hic, hne, Option.filter]

end Good

/-! ## Bytes -/

theorem bytes_unlink (h : HotTier) (idx : ℕ) : (h.unlink idx).bytes = h.bytes := by
  rw [unlink]
  cases h.links.prev idx <;> cases h.links.next idx <;> rfl

theorem bytes_pushToHead (h : HotTier) (idx : ℕ) : (h.pushToHead idx).bytes = h.bytes := by
  rw [pushToHead]
  cases h.head <;> rfl

theorem bytes_moveToHead (h : HotTier) (idx : ℕ) : (h.moveToHead idx).bytes = h.bytes := by
  rw [moveToHead]
  split
  · rfl
  · rw [bytes_pushToHead, bytes_unlink]

theorem bytes_evict (h : HotTier) (victim : ℕ) :
    (h.evict victim).bytes = h.bytes - (h.slotBytes victim).length := by
  simp only [evict, recycle, modify]
  cases h.nodes[victim]? with
  | none => rw [bytes_unlink]
  | some => rw [bytes_unlink]

theorem slotBytes_of_data (hb : h.data i = some (d, b)) :
    h.slotBytes i = b := by
  rw [slotBytes_eq, hb]
  rfl

theorem bytes_get (h : HotTier) (d : Digest) : (h.get d).2.bytes = h.bytes := by
  rw [get]
  split
  · rfl
  · exact bytes_moveToHead h _

theorem Good.capacityBytes_get (hg : Good h order) (d : Digest) :
    (h.get d).2.capacityBytes = h.capacityBytes := by
  rw [HotTier.get]
  split
  · rfl
  · rename_i idx hd
    exact (hg.moveToHead ((hg.map d idx).1 hd).1).2.capacityBytes

/-! ## Entries -/

/-- The tier holds the entries, in the slots of `order`, and counts their bytes. -/
structure Represents (h : HotTier) (order : List ℕ) (entries : List (Digest × Bytes)) : Prop where
  good : Good h order
  contents : h.contents order = entries
  bytes : h.bytes = Lru.total blobSize entries

namespace Represents

variable {entries : List (Digest × Bytes)}

theorem new (capacityBytes : ℕ) : Represents (new capacityBytes) [] [] :=
  ⟨good_new capacityBytes, rfl, rfl⟩

variable (hr : Represents h order entries)

include hr

theorem lookup_none (hd : h.map.get? d = none) :
    entries.lookup d = none := by
  rw [← hr.contents]
  exact hr.good.lookup_contents_none hd

theorem lookup_some (hidx : idx ∈ order)
    (hb : h.data idx = some (d, b)) : entries.lookup d = some b := by
  rw [← hr.contents]
  exact hr.good.lookup_contents_some hidx hb

theorem bytes_eq (hidx : idx ∈ order)
    (hb : h.data idx = some (d, b)) :
    h.bytes = b.length + Lru.total blobSize (Lru.remove entries d) := by
  have hperm : (h.contents order).Perm (h.contents (idx :: order.erase idx)) :=
    (perm_cons_erase hidx).filterMap _
  rw [contents_cons hb, hr.good.contents_erase hidx hb, hr.contents] at hperm
  rw [hr.bytes, Lru.total_perm hperm, Lru.total_cons]

theorem moveToHead (hidx : idx ∈ order)
    (hb : h.data idx = some (d, b)) :
    Represents (h.moveToHead idx) (idx :: order.erase idx) ((d, b) :: Lru.remove entries d) := by
  obtain ⟨hgood, hsame⟩ := hr.good.moveToHead hidx
  refine ⟨hgood, ?_, ?_⟩
  · rw [contents_congr fun i _ => hsame.data i, contents_cons hb,
      hr.good.contents_erase hidx hb, hr.contents]
  · rw [bytes_moveToHead, hr.bytes_eq hidx hb, Lru.total_cons]

theorem get (d : Digest) : (h.get d).1 = (Lru.get entries d).1 ∧
      ∃ order', Represents (h.get d).2 order' (Lru.get entries d).2 := by
  rw [HotTier.get, Lru.get]
  cases hd : h.map.get? d with
  | none =>
    rw [hr.lookup_none hd]
    exact ⟨rfl, order, hr⟩
  | some idx =>
    obtain ⟨hidx, b, hb⟩ := (hr.good.map d idx).1 hd
    rw [hr.lookup_some hidx hb]
    exact ⟨congrArg some (slotBytes_of_data hb), _, hr.moveToHead hidx hb⟩

/-! ### Eviction -/

omit hr

theorem evict {l : List ℕ} {victim : ℕ} (hr : Represents h (l ++ [victim]) entries) :
    ∃ e, entries = h.contents l ++ [e] ∧ Represents (h.evict victim) l (h.contents l) := by
  have hv : victim ∈ l ++ [victim] := by simp
  have hnot : victim ∉ l := fun hmem =>
    disjoint_of_nodup_append hr.good.linked.nodup hmem (by simp)
  obtain ⟨d, b, hb, -⟩ := hr.good.data_of_mem hv
  obtain ⟨slot, hslot, -⟩ := hr.good.getElem?_of_mem hv
  have hentries : entries = h.contents l ++ [(d, b)] := by
    rw [← hr.contents, contents_append, contents_cons hb]
    rfl
  refine ⟨(d, b), hentries, hr.good.evict.1, ?_, ?_⟩
  · exact contents_congr fun i hi => (evicted hslot).data fun heq => hnot (heq ▸ hi)
  rw [bytes_evict, slotBytes_of_data hb, hr.bytes, hentries, Lru.total_append, Lru.total_cons,
    Lru.total_nil]
  simp

theorem capacityBytes_evict {l : List ℕ} {victim : ℕ} (hg : Good h (l ++ [victim])) :
    (h.evict victim).capacityBytes = h.capacityBytes := by
  obtain ⟨slot, hslot, -⟩ := hg.getElem?_of_mem (by simp : victim ∈ l ++ [victim])
  exact (evicted hslot).capacityBytes

theorem evictLoop {turns : ℕ} {h : HotTier} {order : List ℕ} {entries : List (Digest × Bytes)}
    (hr : Represents h order entries) (hturns : order.length ≤ turns) :
    ∃ order', Represents (HotTier.evictLoop turns h) order'
        (Lru.trim blobSize h.capacityBytes entries) ∧
      (HotTier.evictLoop turns h).capacityBytes = h.capacityBytes := by
  induction turns generalizing h order entries with
  | zero =>
    have hnil : order = [] := eq_nil_of_length_eq_zero (Nat.le_zero.1 hturns)
    subst hnil
    have hentries : entries = [] := hr.contents.symm
    subst hentries
    exact ⟨[], hr, rfl⟩
  | succ turns ih =>
    rw [HotTier.evictLoop]
    split
    · rename_i hover
      rw [hr.bytes] at hover
      cases htail : h.tail with
      | none =>
        -- nothing is held, so there cannot be too much
        have hnil : order = [] := getLast?_eq_none_iff.1 (hr.good.linked.tail.symm.trans htail)
        subst hnil
        have hentries : entries = [] := hr.contents.symm
        subst hentries
        exact absurd hover (Nat.not_lt_zero _)
      | some victim =>
        have hlast : order.getLast? = some victim := hr.good.linked.tail.symm.trans htail
        obtain ⟨l, rfl⟩ := getLast?_eq_some_iff.1 hlast
        obtain ⟨e, rfl, hevict⟩ := hr.evict
        have hshort : l.length ≤ turns := by
          rw [length_append, length_singleton] at hturns
          omega
        obtain ⟨order', hloop, hcap⟩ := ih hevict hshort
        rw [capacityBytes_evict hr.good] at hloop hcap
        rw [Lru.trim_append_singleton e hover]
        exact ⟨order', hloop, hcap⟩
    · rename_i hfits
      rw [hr.bytes] at hfits
      rw [Lru.trim_of_le (Nat.not_lt.1 hfits)]
      exact ⟨order, hr, rfl⟩

variable (hr : Represents h order entries)

include hr

theorem evictUntilUnderCapacity :
    ∃ order', Represents h.evictUntilUnderCapacity order'
        (Lru.trim blobSize h.capacityBytes entries) ∧
      h.evictUntilUnderCapacity.capacityBytes = h.capacityBytes :=
  hr.evictLoop hr.good.length_le

/-! ### New blobs -/

theorem refresh (hd : h.map.get? d = some idx) (b : Bytes)
    (hfits : b.length + Lru.total blobSize (Lru.remove entries d) ≤ 2 ^ 64 - 1) :
    Represents
      (({ h.modify idx (fun s => { s with bytes := b }) with
          bytes := U64.saturatingAdd (h.bytes - (h.slotBytes idx).length) b.length } :
        HotTier).moveToHead idx)
      (idx :: order.erase idx) ((d, b) :: Lru.remove entries d) := by
  obtain ⟨hidx, b₀, hb₀⟩ := (hr.good.map d idx).1 hd
  have hcount : U64.saturatingAdd (h.bytes - (h.slotBytes idx).length) b.length =
      b.length + Lru.total blobSize (Lru.remove entries d) := by
    have hbytes := hr.bytes_eq hidx hb₀
    rw [slotBytes_of_data hb₀, hbytes, Nat.add_sub_cancel_left, Nat.add_comm]
    exact U64.saturatingAdd_of_le (by omega)
  rw [hcount]
  obtain ⟨hgood, -⟩ := hr.good.refresh hd b
    (b.length + Lru.total blobSize (Lru.remove entries d))
  obtain ⟨hmoved, hsame⟩ := hgood.moveToHead hidx
  have hdata : ∀ i, (HotTier.moveToHead _ idx).data i = _ := fun i =>
    (hsame.data i).trans (Good.data_refresh hb₀ b i)
  have hnot : ∀ i ∈ order.erase idx, idx ≠ i := by
    rintro i hi rfl
    exact hr.good.linked.nodup.not_mem_erase hi
  refine ⟨hmoved, ?_, ?_⟩
  · rw [contents_cons ((hdata idx).trans (if_pos rfl)),
      contents_congr fun i hi => (hdata i).trans (if_neg (hnot i hi)),
      hr.good.contents_erase hidx hb₀, hr.contents]
  · rw [bytes_moveToHead, Lru.total_cons]

theorem alloc {h' : HotTier} (ha : h.alloc d b = (idx, h')) :
    Represents h' order entries := by
  obtain ⟨hgood, hidx, -⟩ := hr.good.alloc ha
  rw [HotTier.alloc] at ha
  have hkeep : (∀ i ∈ order, h'.data i = h.data i) ∧ h'.bytes = h.bytes := by
    cases hfree : h.free with
    | nil =>
      rw [hfree] at ha
      cases ha
      refine ⟨fun i hi => ?_, rfl⟩
      simp only [data, getElem?_append_left (hr.good.range i hi)]
    | cons =>
      rw [hfree] at ha
      cases ha
      refine ⟨fun i hi => ?_, rfl⟩
      have hne : idx ≠ i := by
        rintro rfl
        exact hidx hi
      simp only [data, getElem?_set_ne hne]
  refine ⟨hgood, ?_, hkeep.2.trans hr.bytes⟩
  rw [contents_congr hkeep.1, hr.contents]

theorem hold (hidx : idx ∉ order) (hfree : idx ∉ h.free)
    (hdata : h.data idx = some (d, b)) (hd : h.map.get? d = none) (hcap : h.capacityBytes ≠ 0)
    (hfits : b.length + Lru.total blobSize entries ≤ 2 ^ 64 - 1) :
    Represents
      (({ h with
          map := h.map.insert d idx
          bytes := U64.saturatingAdd h.bytes b.length } : HotTier).pushToHead idx)
      (idx :: order) ((d, b) :: entries) := by
  have hsame := sameBlobs_pushToHead
    { h with map := h.map.insert d idx, bytes := U64.saturatingAdd h.bytes b.length } idx
  refine ⟨(hr.good.hold hidx hfree hdata hd hcap _).1, ?_, ?_⟩
  · rw [contents_cons ((hsame.data idx).trans hdata), contents_congr fun i _ => hsame.data i]
    exact congrArg _ hr.contents
  have hsum : h.bytes + b.length ≤ 2 ^ 64 - 1 := by
    rw [hr.bytes]
    omega
  rw [bytes_pushToHead, Lru.total_cons, ← hr.bytes]
  exact (U64.saturatingAdd_of_le hsum).trans (Nat.add_comm _ _)

theorem put (hcap : h.capacityBytes ≠ 0) (d : Digest) (b : Bytes)
    (hfits : (entries.lookup d).isSome ∨ b.length ≤ h.capacityBytes →
      b.length + Lru.total blobSize (Lru.remove entries d) ≤ 2 ^ 64 - 1) :
    (∃ order', Represents (h.put d b) order' (Lru.put blobSize h.capacityBytes entries d b)) ∧
      (h.put d b).capacityBytes = h.capacityBytes := by
  rw [HotTier.put, if_neg hcap]
  cases hd : h.map.get? d with
  | some idx =>
    obtain ⟨hidx, b₀, hb₀⟩ := (hr.good.map d idx).1 hd
    have hsome := hr.lookup_some hidx hb₀
    rw [Lru.put_of_some hsome]
    have hrefresh := hr.refresh hd b (hfits (Or.inl (by rw [hsome]; rfl)))
    obtain ⟨-, hsame⟩ := (hr.good.refresh hd b
      (U64.saturatingAdd (h.bytes - (h.slotBytes idx).length) b.length)).1.moveToHead hidx
    obtain ⟨order', hput, hcap'⟩ := hrefresh.evictUntilUnderCapacity
    rw [hsame.capacityBytes] at hput hcap'
    exact ⟨⟨order', hput⟩, hcap'⟩
  | none =>
    have hnone := hr.lookup_none hd
    rw [Lru.put_of_none hnone]
    by_cases hlarge : h.capacityBytes < b.length
    · simp only [if_pos hlarge, if_neg (Nat.not_le.2 hlarge)]
      exact ⟨⟨order, hr⟩, trivial⟩
    have hle : b.length ≤ h.capacityBytes := Nat.not_lt.1 hlarge
    simp only [if_neg hlarge, if_pos hle]
    have hsum := hfits (Or.inr hle)
    rw [Lru.remove_of_lookup_none hnone] at hsum
    rcases ha : h.alloc d b with ⟨idx, g⟩
    obtain ⟨-, hidx, hfree, hdata, hmap, hcap', -⟩ := hr.good.alloc ha
    have hheld := (hr.alloc ha).hold hidx hfree hdata (hmap ▸ hd) (hcap' ▸ hcap) hsum
    have hsame := sameBlobs_pushToHead
      { g with map := g.map.insert d idx, bytes := U64.saturatingAdd g.bytes b.length } idx
    obtain ⟨order', hput, hcap''⟩ := hheld.evictUntilUnderCapacity
    rw [hsame.capacityBytes.trans hcap'] at hput hcap''
    exact ⟨⟨order', hput⟩, hcap''⟩

theorem bytes_eq_sum :
    h.bytes = (order.map fun i => (h.slotBytes i).length).sum := by
  have hsum : ∀ l : List ℕ, (∀ i ∈ l, i ∈ order) →
      Lru.total blobSize (h.contents l) = (l.map fun i => (h.slotBytes i).length).sum := by
    intro l hl
    induction l with
    | nil => rfl
    | cons i l ih =>
      obtain ⟨d, b, hb, -⟩ := hr.good.data_of_mem (hl i mem_cons_self)
      rw [contents_cons hb, Lru.total_cons, map_cons, sum_cons, slotBytes_of_data hb,
        ih fun j hj => hl j (mem_cons_of_mem _ hj)]
  rw [hr.bytes, ← hr.contents, hsum order fun _ hi => hi]

end Represents

/-! ## Runs -/

/-- One operation. -/
def step (h : HotTier) : Lru.Op Digest Bytes → HotTier
  | .get d => (h.get d).2
  | .put d b => h.put d b

/-- Operations one after the other. -/
def after (h : HotTier) (ops : List (Lru.Op Digest Bytes)) : HotTier := ops.foldl step h

/-- The answers to the lookups of a run. -/
def answers (h : HotTier) : List (Lru.Op Digest Bytes) → List (Option Bytes)
  | [] => []
  | .get d :: ops => (h.get d).1 :: (h.step (.get d)).answers ops
  | .put d b :: ops => (h.step (.put d b)).answers ops

/-- The links are those of one list, without a slot twice, of exactly the slots of the map;
free slots are not in it; bytes are counted, and within the bound. -/
def Sound (h : HotTier) : Prop :=
  ∃ order, h.links.Linked order ∧ (∀ i, i ∈ order ↔ ∃ d, h.map.get? d = some i) ∧
    (∀ i ∈ h.free, i ∉ order) ∧ h.bytes = (order.map fun i => (h.slotBytes i).length).sum ∧
    h.bytes ≤ h.capacityBytes

theorem Represents.sound {entries : List (Digest × Bytes)} (hr : Represents h order entries)
    (hle : h.bytes ≤ h.capacityBytes) : h.Sound := by
  refine ⟨order, hr.good.linked, fun i => ⟨fun hi => ?_, ?_⟩, fun i hi => (hr.good.free i hi).2,
    hr.bytes_eq_sum, hle⟩
  · obtain ⟨d, b, -, hmap⟩ := hr.good.data_of_mem hi
    exact ⟨d, hmap⟩
  · rintro ⟨d, hd⟩
    exact ((hr.good.map d i).1 hd).1

end HotTier

/-- No sum of bytes that a run computes exceeds the limit. -/
def SumsFit (limit cap : ℕ) (entries : List (Digest × Bytes)) :
    List (Lru.Op Digest Bytes) → Prop
  | [] => True
  | .get d :: ops => SumsFit limit cap (Lru.step HotTier.blobSize cap entries (.get d)) ops
  | .put d b :: ops =>
    ((entries.lookup d).isSome ∨ b.length ≤ cap →
      b.length + Lru.total HotTier.blobSize (Lru.remove entries d) ≤ limit) ∧
    SumsFit limit cap (Lru.step HotTier.blobSize cap entries (.put d b)) ops

namespace HotTier

variable {h : HotTier} {order : List ℕ} {entries : List (Digest × Bytes)} {cap : ℕ}

theorem Represents.run (hr : Represents h order entries) (hcap : h.capacityBytes = cap)
    (hpos : 0 < cap) (hle : h.bytes ≤ cap) {ops : List (Lru.Op Digest Bytes)}
    (hfit : SumsFit (2 ^ 64 - 1) cap entries ops) :
    h.answers ops = Lru.answers blobSize cap entries ops ∧ (h.after ops).Sound := by
  induction ops generalizing h order entries with
  | nil => exact ⟨rfl, hr.sound (hcap.symm ▸ hle)⟩
  | cons op ops ih =>
    cases op with
    | get d =>
      obtain ⟨hanswer, order', hget⟩ := hr.get d
      have hcap' : (h.get d).2.capacityBytes = cap := by
        rw [← hcap]
        exact hr.good.capacityBytes_get d
      have hle' : (h.get d).2.bytes ≤ cap := by
        rw [bytes_get]
        exact hle
      obtain ⟨hanswers, hsound⟩ := ih hget hcap' hle' hfit
      exact ⟨congrArg₂ List.cons hanswer hanswers, hsound⟩
    | put d b =>
      obtain ⟨hsum, hfit⟩ := hfit
      obtain ⟨⟨order', hput⟩, hcap'⟩ := hr.put (by omega) d b (by rwa [hcap])
      rw [hcap] at hput hcap'
      have hle' : (h.put d b).bytes ≤ cap := by
        rw [hput.bytes]
        exact Lru.total_put_le (hr.bytes ▸ hle) d b
      exact ih hput hcap' hle' hfit

theorem step_new_zero (op : Lru.Op Digest Bytes) : (new 0).step op = new 0 := by
  cases op <;> rfl

theorem after_new_zero (ops : List (Lru.Op Digest Bytes)) : (new 0).after ops = new 0 := by
  induction ops with
  | nil => rfl
  | cons op ops ih =>
    rw [after, foldl_cons, step_new_zero]
    exact ih

theorem answers_new_zero (ops : List (Lru.Op Digest Bytes)) :
    ∀ a ∈ (new 0).answers ops, a = none := by
  induction ops with
  | nil =>
    intro a ha
    cases ha
  | cons op ops ih =>
    intro a ha
    cases op with
    | get =>
      rcases mem_cons.1 ha with rfl | ha
      · rfl
      · exact ih a ha
    | put =>
      exact ih a ha

end HotTier

/-- A tier with a budget answers like the list cache, one without a budget like an empty
cache; and in every state the links, the free slots and the byte count are in order. -/
theorem hotTier_refines_lru (cap : ℕ) (ops : List (Lru.Op Digest Bytes))
    (hfit : SumsFit (2 ^ 64 - 1) cap [] ops) :
    (0 < cap → (HotTier.new cap).answers ops = Lru.answers HotTier.blobSize cap [] ops) ∧
    (cap = 0 → ∀ a ∈ (HotTier.new cap).answers ops, a = none) ∧
    ((HotTier.new cap).after ops).Sound := by
  rcases Nat.eq_zero_or_pos cap with rfl | hpos
  · refine ⟨fun h => absurd h (lt_irrefl 0), fun _ => HotTier.answers_new_zero ops, ?_⟩
    rw [HotTier.after_new_zero]
    exact (HotTier.Represents.new 0).sound (Nat.le_refl 0)
  obtain ⟨hanswers, hsound⟩ :=
    (HotTier.Represents.new cap).run rfl hpos (Nat.zero_le cap) hfit
  exact ⟨fun _ => hanswers, fun h => absurd h hpos.ne', hsound⟩

open Sample

/-- Three blobs fill the budget and the first of them is read again: the next one that comes
in takes the place of the second. -/
def Sample.evicting : List (Lru.Op Digest Bytes) :=
  [.put (Digest.of [1]) [1], .put (Digest.of [2]) [2], .put (Digest.of [3]) [3],
    .get (Digest.of [1]), .put (Digest.of [4]) [4], .get (Digest.of [2]), .get (Digest.of [1])]

theorem hotTier_refines_lru_sample :
    (HotTier.new 3).answers evicting = [some [1], none, some [1]] := by
  have h := hotTier_refines_lru 3 evicting ⟨fun _ => by decide +kernel, fun _ => by decide +kernel,
    fun _ => by decide +kernel, fun _ => by decide +kernel, trivial⟩
  decide +kernel

/-- Without a budget the list cache holds the empty blob, and the tier does not. -/
theorem empty_blob_without_budget :
    SumsFit (2 ^ 64 - 1) 0 [] [.put emptyDigest [], .get emptyDigest] ∧
    (HotTier.new 0).answers [.put emptyDigest [], .get emptyDigest] = [none] ∧
    Lru.answers HotTier.blobSize 0 [] [.put emptyDigest [], .get emptyDigest] = [some []] := by
  refine ⟨⟨fun _ => by decide +kernel, trivial⟩, by decide +kernel, by decide +kernel⟩

end Brokkr.Blobs
