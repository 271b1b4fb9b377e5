import Brokkr.Lib.LinkedList
import Brokkr.Cas.Store

/-!
# The hot tier

The in-memory LRU of `tiered.rs`: blobs up to a bound on their bytes, the one used
longest ago evicted first.

* `HotTier` — a map from digests to the nodes of a doubly linked list that lives in a
  pool of slots; evicted slots are kept for reuse.
* `HotTier.get`, `HotTier.put`, `HotTier.evictLoop` — as the source computes them.  An
  index out of the pool, where the source would panic, changes nothing here.
* `HotTier.Good` — the links are those of a list of slots, and the map leads exactly
  to them, so every index is in the pool; `Good.get`, `Good.put` and `Good.evictLoop`
  say what the operations hold afterwards.
-/

namespace Brokkr.Blobs

open Function

open List

/-! ## The hot tier -/

/-- A slot of the pool. `NONE` of the source is `none`. -/
structure Slot where
  digest : Digest
  bytes : Bytes
  prev : Option ℕ
  next : Option ℕ

/-- In-memory LRU, bounded by the bytes it holds. -/
structure HotTier where
  capacityBytes : ℕ
  bytes : ℕ
  map : OrdMap Digest ℕ
  nodes : List Slot
  free : List ℕ
  head : Option ℕ
  tail : Option ℕ

variable {h h' : HotTier} {i idx victim : ℕ} {slot : Slot} {l : List ℕ} {d : Digest}

namespace HotTier

/-- An empty tier. -/
def new (capacityBytes : ℕ) : HotTier :=
  { capacityBytes, bytes := 0, map := ∅, nodes := [], free := [], head := none, tail := none }

/-- The links of the slots. -/
def links (h : HotTier) : Links ℕ where
  prev i := (h.nodes[i]?).bind Slot.prev
  next i := (h.nodes[i]?).bind Slot.next
  head := h.head
  tail := h.tail

/-- What a slot holds. -/
def data (h : HotTier) (i : ℕ) : Option (Digest × Bytes) :=
  (h.nodes[i]?).map fun s => (s.digest, s.bytes)

/-- The bytes of a slot. -/
def slotBytes (h : HotTier) (i : ℕ) : Bytes := ((h.nodes[i]?).map Slot.bytes).getD []

/-- Change a slot. -/
def modify (h : HotTier) (i : ℕ) (f : Slot → Slot) : HotTier :=
  { h with nodes := h.nodes.modify i f }

/-- Put a slot at the head of the list. -/
def pushToHead (h : HotTier) (idx : ℕ) : HotTier :=
  let linked := h.modify idx fun s => { s with prev := none, next := h.head }
  let linked := match h.head with
    | some first => linked.modify first fun s => { s with prev := some idx }
    | none => linked
  { linked with head := some idx, tail := if h.tail = none then some idx else h.tail }

/-- Take a slot out of the list. -/
def unlink (h : HotTier) (idx : ℕ) : HotTier :=
  let prev := h.links.prev idx
  let next := h.links.next idx
  let cut := match prev with
    | some p => h.modify p fun s => { s with next := next }
    | none => { h with head := next }
  match next with
  | some n => cut.modify n fun s => { s with prev := prev }
  | none => { cut with tail := prev }

/-- Make a slot the one used last. -/
def moveToHead (h : HotTier) (idx : ℕ) : HotTier :=
  if h.head = some idx then h else (h.unlink idx).pushToHead idx

/-- Empty a slot and keep it for reuse. -/
def recycle (h : HotTier) (idx : ℕ) : HotTier :=
  let emptied := h.modify idx fun s => { s with bytes := [], prev := none, next := none }
  { emptied with free := idx :: h.free }

/-- A slot for a blob: one of the free ones, or a new one. -/
def alloc (h : HotTier) (digest : Digest) (bytes : Bytes) : ℕ × HotTier :=
  let slot : Slot := { digest, bytes, prev := none, next := none }
  match h.free with
  | idx :: free => (idx, { h with nodes := h.nodes.set idx slot, free := free })
  | [] => (h.nodes.length, { h with nodes := h.nodes ++ [slot] })

/-- Evict the blob of a slot. -/
def evict (h : HotTier) (victim : ℕ) : HotTier :=
  let victimLen := (h.slotBytes victim).length
  let unlinked := h.unlink victim
  let removed := match h.nodes[victim]? with
    | some slot => { unlinked with map := unlinked.map.erase slot.digest }
    | none => unlinked
  ({ removed with bytes := removed.bytes - victimLen }).recycle victim

/-- The eviction loop; one turn for each slot of the pool is enough
(`Good.evictUntilUnderCapacity_ends`). -/
def evictLoop : ℕ → HotTier → HotTier
  | 0, h => h
  | turns + 1, h =>
    if h.capacityBytes < h.bytes then
      match h.tail with
      | some victim => evictLoop turns (h.evict victim)
      | none => h
    else h

/-- Evict until the bound is kept. -/
def evictUntilUnderCapacity (h : HotTier) : HotTier := evictLoop h.nodes.length h

/-- Look a blob up; it becomes the one used last. -/
def get (h : HotTier) (digest : Digest) : Option Bytes × HotTier :=
  match h.map.get? digest with
  | none => (none, h)
  | some idx => (some (h.slotBytes idx), h.moveToHead idx)

/-- Hold a blob, if it fits at all. -/
def put (h : HotTier) (digest : Digest) (bytes : Bytes) : HotTier :=
  if h.capacityBytes = 0 then h
  else
    match h.map.get? digest with
    | some idx =>
      let oldLen := (h.slotBytes idx).length
      let refreshed := h.modify idx fun s => { s with bytes := bytes }
      let counted := { refreshed with bytes := U64.saturatingAdd (h.bytes - oldLen) bytes.length }
      (counted.moveToHead idx).evictUntilUnderCapacity
    | none =>
      if h.capacityBytes < bytes.length then h
      else
        let (idx, grown) := h.alloc digest bytes
        let grown :=
          { grown with
            map := grown.map.insert digest idx
            bytes := U64.saturatingAdd grown.bytes bytes.length }
        (grown.pushToHead idx).evictUntilUnderCapacity

/-! ## The tier holds a list of slots -/

/-- The blob held for a digest. -/
def lookup (h : HotTier) (d : Digest) : Option Bytes :=
  (h.map.get? d).bind fun i => (h.data i).map Prod.snd

/-- The tier holds the slots of `order`, the one used last first. -/
structure Good (h : HotTier) (order : List ℕ) : Prop where
  linked : h.links.Linked order
  map : ∀ d i, h.map.get? d = some i ↔ i ∈ order ∧ ∃ b, h.data i = some (d, b)
  range : ∀ i ∈ order, i < h.nodes.length
  free : ∀ i ∈ h.free, i < h.nodes.length ∧ i ∉ order
  freeOnce : h.free.Nodup
  zero : h.capacityBytes = 0 → order = []

theorem good_new (capacityBytes : ℕ) : Good (new capacityBytes) [] where
  linked := Links.linked_nil rfl rfl
  map d i := by simp [new]
  range := by simp
  free := by simp [new]
  freeOnce := nodup_nil
  zero _ := rfl

theorem data_lt {p : Digest × Bytes} (hd : h.data i = some p) :
    i < h.nodes.length := by
  by_contra hlt
  rw [data, List.getElem?_eq_none (not_lt.1 hlt)] at hd
  cases hd

theorem slotBytes_eq (h : HotTier) (i : ℕ) : h.slotBytes i = ((h.data i).map Prod.snd).getD [] := by
  rw [slotBytes, data, Option.map_map]
  rfl

/-! ## Links -/

theorem length_modify (h : HotTier) (i : ℕ) (f : Slot → Slot) :
    (h.modify i f).nodes.length = h.nodes.length := List.length_modify f h.nodes i

theorem getElem?_modify (h : HotTier) (i : ℕ) (f : Slot → Slot) (j : ℕ) :
    (h.modify i f).nodes[j]? = if i = j then (h.nodes[j]?).map f else h.nodes[j]? := by
  rw [modify, List.getElem?_modify]
  by_cases hij : i = j
  · simp [hij]
  · simp [hij]

theorem data_modify (h : HotTier) (i : ℕ) {f : Slot → Slot}
    (hf : ∀ s, (f s).digest = s.digest ∧ (f s).bytes = s.bytes) (j : ℕ) :
    (h.modify i f).data j = h.data j := by
  rw [data, getElem?_modify, data]
  split
  · rw [Option.map_map]
    refine congrArg (fun g => (h.nodes[j]?).map g) (funext fun s => ?_)
    rw [comp, (hf s).1, (hf s).2]
  · rfl

theorem links_modify {s : Slot} (hi : h.nodes[i]? = some s) (f : Slot → Slot) :
    (h.modify i f).links = { h.links with
        prev := update h.links.prev i (f s).prev
        next := update h.links.next i (f s).next } := by
  refine Links.ext ?_ ?_ rfl rfl
  · funext j
    simp only [links, getElem?_modify]
    by_cases hij : i = j
    · subst hij
      rw [if_pos rfl, hi, update_self]
      rfl
    · rw [if_neg hij, update_of_ne (Ne.symm hij)]
  funext j
  simp only [links, getElem?_modify]
  by_cases hij : i = j
  · subst hij
    rw [if_pos rfl, hi, update_self]
    rfl
  · rw [if_neg hij, update_of_ne (Ne.symm hij)]

theorem links_setNext (hi : i < h.nodes.length) (v : Option ℕ) :
    (h.modify i fun s => { s with next := v }).links =
      { h.links with next := update h.links.next i v } := by
  have hs := getElem?_eq_getElem hi
  have hprev : h.links.prev i = h.nodes[i].prev := by simp [links, hs]
  rw [links_modify hs]
  simp only [← hprev, update_eq_self]

theorem links_setPrev (hi : i < h.nodes.length) (v : Option ℕ) :
    (h.modify i fun s => { s with prev := v }).links =
      { h.links with prev := update h.links.prev i v } := by
  have hs := getElem?_eq_getElem hi
  have hnext : h.links.next i = h.nodes[i].next := by simp [links, hs]
  rw [links_modify hs]
  simp only [← hnext, update_eq_self]

theorem links_unlink (hp : ∀ p, h.links.prev idx = some p → p < h.nodes.length)
    (hn : ∀ n, h.links.next idx = some n → n < h.nodes.length) :
    (h.unlink idx).links = h.links.unlink idx := by
  rw [unlink, Links.unlink]
  cases hprev : h.links.prev idx with
  | none =>
    cases hnext : h.links.next idx with
    | none => rfl
    | some n =>
      have hlen : n < ({ h with head := some n } : HotTier).nodes.length := hn n hnext
      simp only [links_setPrev hlen]
      rfl
  | some p =>
    cases hnext : h.links.next idx with
    | none =>
      have hset := links_setNext (hp p hprev) none
      have hprev' := congrArg Links.prev hset
      have hnext' := congrArg Links.next hset
      exact Links.ext hprev' hnext' rfl rfl
    | some n =>
      have hlen : n < (h.modify p fun s => { s with next := some n }).nodes.length := by
        rw [length_modify]
        exact hn n hnext
      simp only [links_setPrev hlen, links_setNext (hp p hprev)]
      rfl

theorem links_pushToHead (hi : idx < h.nodes.length)
    (hh : ∀ p, h.head = some p → p < h.nodes.length) :
    (h.pushToHead idx).links = h.links.pushFront idx := by
  have hset := links_modify (getElem?_eq_getElem hi)
    (fun s => { s with prev := none, next := h.head })
  rw [pushToHead, Links.pushFront]
  cases hhead : h.head with
  | none =>
    rw [hhead] at hset
    have hl : h.links.head = none := hhead
    have hprev := congrArg Links.prev hset
    have hnext := congrArg Links.next hset
    simp only [hl]
    exact Links.ext hprev hnext rfl rfl
  | some first =>
    rw [hhead] at hset
    have hl : h.links.head = some first := hhead
    have hlen : first < (h.modify idx fun s =>
        { s with prev := none, next := some first }).nodes.length := by
      rw [length_modify]
      exact hh first hhead
    have hset' := links_setPrev hlen (some idx)
    rw [hset] at hset'
    have hprev := congrArg Links.prev hset'
    have hnext := congrArg Links.next hset'
    simp only [hl]
    exact Links.ext hprev hnext rfl rfl

/-! ## Moving a slot -/

/-- The two tiers hold the same blobs in the same slots. -/
structure SameBlobs (h h' : HotTier) : Prop where
  capacityBytes : h'.capacityBytes = h.capacityBytes
  map : h'.map = h.map
  data : ∀ i, h'.data i = h.data i
  length : h'.nodes.length = h.nodes.length
  free : h'.free = h.free

theorem SameBlobs.trans {h'' : HotTier} (h1 : SameBlobs h h') (h2 : SameBlobs h' h'') :
    SameBlobs h h'' where
  capacityBytes := h2.capacityBytes.trans h1.capacityBytes
  map := h2.map.trans h1.map
  data i := (h2.data i).trans (h1.data i)
  length := h2.length.trans h1.length
  free := h2.free.trans h1.free

theorem SameBlobs.lookup (hs : SameBlobs h h') (d : Digest) :
    h'.lookup d = h.lookup d := by
  rw [HotTier.lookup, HotTier.lookup, hs.map]
  simp only [hs.data]

theorem sameBlobs_modify (h : HotTier) (i : ℕ) {f : Slot → Slot}
    (hf : ∀ s, (f s).digest = s.digest ∧ (f s).bytes = s.bytes) : SameBlobs h (h.modify i f) :=
  ⟨rfl, rfl, data_modify h i hf, length_modify h i f, rfl⟩

theorem sameBlobs_unlink (h : HotTier) (idx : ℕ) : SameBlobs h (h.unlink idx) := by
  rw [unlink]
  cases h.links.prev idx with
  | none =>
    cases h.links.next idx with
    | none => exact ⟨rfl, rfl, fun _ => rfl, rfl, rfl⟩
    | some n =>
      have hcut : SameBlobs h { h with head := some n } := ⟨rfl, rfl, fun _ => rfl, rfl, rfl⟩
      exact hcut.trans (sameBlobs_modify _ n fun s => ⟨rfl, rfl⟩)
  | some p =>
    have hcut := sameBlobs_modify h p
      (f := fun s => { s with next := h.links.next idx }) fun s => ⟨rfl, rfl⟩
    cases hnext : h.links.next idx with
    | none =>
      rw [hnext] at hcut
      exact hcut.trans ⟨rfl, rfl, fun _ => rfl, rfl, rfl⟩
    | some n =>
      rw [hnext] at hcut
      exact hcut.trans (sameBlobs_modify _ n fun s => ⟨rfl, rfl⟩)

theorem sameBlobs_pushToHead (h : HotTier) (idx : ℕ) : SameBlobs h (h.pushToHead idx) := by
  have hset := sameBlobs_modify h idx
    (f := fun s => { s with prev := none, next := h.head }) fun s => ⟨rfl, rfl⟩
  rw [pushToHead]
  cases hhead : h.head with
  | none =>
    rw [hhead] at hset
    exact hset.trans ⟨rfl, rfl, fun _ => rfl, rfl, rfl⟩
  | some first =>
    rw [hhead] at hset
    have hset' := hset.trans (sameBlobs_modify _ first
      (f := fun s => { s with prev := some idx }) fun s => ⟨rfl, rfl⟩)
    exact hset'.trans ⟨rfl, rfl, fun _ => rfl, rfl, rfl⟩

/-- What evicting the blob of a slot does. -/
structure Evicted (h h' : HotTier) (victim : ℕ) (slot : Slot) : Prop where
  capacityBytes : h'.capacityBytes = h.capacityBytes
  map : h'.map = h.map.erase slot.digest
  nodes : ∀ {i}, i ≠ victim → h'.nodes[i]? = (h.unlink victim).nodes[i]?
  length : h'.nodes.length = h.nodes.length
  free : h'.free = victim :: h.free
  head : h'.head = (h.unlink victim).head
  tail : h'.tail = (h.unlink victim).tail

theorem evicted (hslot : h.nodes[victim]? = some slot) :
    Evicted h (h.evict victim) victim slot := by
  have hsame := sameBlobs_unlink h victim
  simp only [evict, hslot, recycle, modify]
  constructor
  · exact hsame.capacityBytes
  · rw [hsame.map]
  · intro i hi
    simp [Ne.symm hi]
  · rw [List.length_modify]
    exact hsame.length
  · rw [hsame.free]
  · rfl
  · rfl

theorem Evicted.data (he : Evicted h h' victim slot) (hi : i ≠ victim) : h'.data i = h.data i := by
  rw [HotTier.data, he.nodes hi]
  exact (sameBlobs_unlink h victim).data i

namespace Good

variable {order : List ℕ}

theorem unlink_linked {r : List ℕ} (hg : Good h (l ++ idx :: r)) :
    (h.unlink idx).links.Linked (l ++ r) := by
  obtain ⟨hprev, hnext⟩ := hg.linked.neighbours l idx r rfl
  have hlinks : (h.unlink idx).links = h.links.unlink idx := by
    refine links_unlink ?_ ?_
    · intro p hp
      rw [hprev] at hp
      exact hg.range p (mem_append_left _ (mem_of_getLast? hp))
    intro n hn
    rw [hnext] at hn
    have hmem : n ∈ r := mem_of_mem_head? hn
    exact hg.range n (mem_append_right _ (mem_cons_of_mem _ hmem))
  rw [hlinks]
  exact hg.linked.unlink

theorem relink {order' : List ℕ} (hg : Good h order) (hs : SameBlobs h h')
    (hl : h'.links.Linked order') (hmem : ∀ i, i ∈ order' ↔ i ∈ order) : Good h' order' where
  linked := hl
  map d i := by
    rw [hs.map, hmem, hs.data]
    exact hg.map d i
  range i hi := by
    rw [hs.length]
    exact hg.range i ((hmem i).1 hi)
  free i hi := by
    rw [hs.free] at hi
    rw [hs.length, hmem]
    exact hg.free i hi
  freeOnce := by
    rw [hs.free]
    exact hg.freeOnce
  zero hzero := by
    rw [hs.capacityBytes] at hzero
    have hnil := hg.zero hzero
    refine eq_nil_iff_forall_not_mem.2 fun i hi => ?_
    have := (hmem i).1 hi
    rw [hnil] at this
    cases this

theorem moveToHead (hg : Good h order) (hi : idx ∈ order) :
    Good (h.moveToHead idx) (idx :: order.erase idx) ∧ SameBlobs h (h.moveToHead idx) := by
  rw [HotTier.moveToHead]
  split
  · rename_i hhead
    have horder : order.head? = some idx := hg.linked.head.symm.trans hhead
    obtain ⟨rest, rfl⟩ := head?_eq_some_iff.1 horder
    rw [erase_cons_head]
    exact ⟨hg, ⟨rfl, rfl, fun _ => rfl, rfl, rfl⟩⟩
  obtain ⟨l, r, rfl⟩ := append_of_mem hi
  have hsame := sameBlobs_unlink h idx
  have hlinked := hg.unlink_linked
  have hnot : idx ∉ l ++ r := (nodup_cons.1 (nodup_middle.1 hg.linked.nodup)).1
  have hin : idx < (h.unlink idx).nodes.length := by
    rw [hsame.length]
    exact hg.range idx hi
  have hhead : ∀ p, (h.unlink idx).head = some p → p < (h.unlink idx).nodes.length := by
    intro p hp
    have hp' : (l ++ r).head? = some p := hlinked.head.symm.trans hp
    rw [hsame.length]
    refine hg.range p ?_
    rcases mem_append.1 (mem_of_mem_head? hp') with hl | hr
    · exact mem_append_left _ hl
    · exact mem_append_right _ (mem_cons_of_mem _ hr)
  have hpush : ((h.unlink idx).pushToHead idx).links.Linked (idx :: (l ++ r)) := by
    rw [links_pushToHead hin hhead]
    exact hlinked.pushFront hnot
  have hall := hsame.trans (sameBlobs_pushToHead (h.unlink idx) idx)
  have herase : (l ++ idx :: r).erase idx = l ++ r := by
    rw [erase_append_right _ fun hl => hnot (mem_append_left _ hl), erase_cons_head]
  rw [herase]
  refine ⟨hg.relink hall hpush fun i => ?_, hall⟩
  simp only [mem_cons, mem_append]
  tauto

theorem lookup_eq (hi : h.map.get? d = some i) :
    h.lookup d = (h.data i).map Prod.snd := by
  rw [HotTier.lookup, hi]
  rfl

theorem get (hg : Good h order) (d : Digest) :
    (h.get d).1 = h.lookup d ∧ (∃ order', Good (h.get d).2 order') ∧
      ∀ e, (h.get d).2.lookup e = h.lookup e := by
  rw [HotTier.get]
  cases hd : h.map.get? d with
  | none => exact ⟨by rw [HotTier.lookup, hd]; rfl, ⟨order, hg⟩, fun _ => rfl⟩
  | some idx =>
    obtain ⟨hi, b, hb⟩ := (hg.map d idx).1 hd
    obtain ⟨hgood, hsame⟩ := hg.moveToHead hi
    have hbytes : h.slotBytes idx = b := by
      rw [slotBytes_eq, hb]
      rfl
    refine ⟨?_, ⟨_, hgood⟩, hsame.lookup⟩
    rw [lookup_eq hd, hb]
    exact congrArg some hbytes

/-! ### Eviction -/

theorem getElem?_of_mem (hg : Good h order) (hi : i ∈ order) :
    ∃ s, h.nodes[i]? = some s ∧ h.map.get? s.digest = some i := by
  have hlt := hg.range i hi
  have hs := getElem?_eq_getElem hlt
  refine ⟨_, hs, (hg.map _ i).2 ⟨hi, h.nodes[i].bytes, ?_⟩⟩
  rw [data, hs]
  rfl

theorem map_evicted (hg : Good h (l ++ [victim])) (hslot : h.nodes[victim]? = some slot)
    (he : Evicted h h' victim slot) (d : Digest) (i : ℕ) :
    h'.map.get? d = some i ↔ i ∈ l ∧ ∃ b, h'.data i = some (d, b) := by
  have hv : victim ∈ l ++ [victim] := by simp
  have hnot : victim ∉ l := fun hmem => disjoint_of_nodup_append hg.linked.nodup hmem (by simp)
  have hdv : h.data victim = some (slot.digest, slot.bytes) := by rw [data, hslot]; rfl
  have hmapv := (hg.map slot.digest victim).2 ⟨hv, slot.bytes, hdv⟩
  rw [he.map, OrdMap.get?_erase]
  by_cases hd : d = slot.digest
  · -- a slot that stays does not hold the digest of the victim
    rw [if_pos hd]
    constructor
    · intro hno
      cases hno
    rintro ⟨hi, b, hb⟩
    rw [he.data fun heq => hnot (heq ▸ hi), hd] at hb
    have hmapi := (hg.map slot.digest i).2 ⟨mem_append_left _ hi, b, hb⟩
    rw [hmapv] at hmapi
    cases hmapi
    exact absurd hi hnot
  · rw [if_neg hd, hg.map d i]
    constructor
    · rintro ⟨hi, b, hb⟩
      have hiv : i ≠ victim := by
        rintro rfl
        rw [hdv] at hb
        cases hb
        exact hd rfl
      refine ⟨?_, b, by rw [he.data hiv, hb]⟩
      rcases mem_append.1 hi with hi | hi
      · exact hi
      · exact absurd (mem_singleton.1 hi) hiv
    · rintro ⟨hi, b, hb⟩
      rw [he.data fun heq => hnot (heq ▸ hi)] at hb
      exact ⟨mem_append_left _ hi, b, hb⟩

theorem evict (hg : Good h (l ++ [victim])) :
    Good (h.evict victim) l ∧ ∀ e c, (h.evict victim).lookup e = some c → h.lookup e = some c := by
  have hv : victim ∈ l ++ [victim] := by simp
  have hnot : victim ∉ l := fun hmem => disjoint_of_nodup_append hg.linked.nodup hmem (by simp)
  obtain ⟨slot, hslot, -⟩ := hg.getElem?_of_mem hv
  have he := evicted hslot
  have hmap := hg.map_evicted hslot he
  have hlinked : (h.unlink victim).links.Linked l := by
    have := hg.unlink_linked
    rwa [append_nil] at this
  refine ⟨⟨?_, hmap, ?_, ?_, ?_, ?_⟩, ?_⟩
  · refine hlinked.congr he.head he.tail ?_ ?_
    · intro i hi
      simp only [links, he.nodes fun heq => hnot (heq ▸ hi)]
    · intro i hi
      simp only [links, he.nodes fun heq => hnot (heq ▸ hi)]
  · intro i hi
    rw [he.length]
    exact hg.range i (mem_append_left _ hi)
  · intro i hi
    rw [he.free] at hi
    rw [he.length]
    rcases mem_cons.1 hi with rfl | hi
    · exact ⟨hg.range _ hv, hnot⟩
    · obtain ⟨hlt, hno⟩ := hg.free i hi
      exact ⟨hlt, fun hmem => hno (mem_append_left _ hmem)⟩
  · rw [he.free]
    exact nodup_cons.2 ⟨fun hmem => (hg.free victim hmem).2 hv, hg.freeOnce⟩
  · intro hzero
    rw [he.capacityBytes] at hzero
    have := hg.zero hzero
    simp at this
  · intro e c hc
    rw [HotTier.lookup, Option.bind_eq_some_iff] at hc
    obtain ⟨i, hi, hic⟩ := hc
    obtain ⟨hil, b, hb⟩ := (hmap e i).1 hi
    have hiv : i ≠ victim := fun heq => hnot (heq ▸ hil)
    rw [he.data hiv] at hb hic
    rw [lookup_eq ((hg.map e i).2 ⟨mem_append_left _ hil, b, hb⟩), hic]

theorem evictLoop (turns : ℕ) {order : List ℕ} (hg : Good h order) :
    (∃ order', Good (HotTier.evictLoop turns h) order') ∧
      ∀ e c, (HotTier.evictLoop turns h).lookup e = some c → h.lookup e = some c := by
  induction turns generalizing h order with
  | zero => exact ⟨⟨order, hg⟩, fun _ _ hc => hc⟩
  | succ turns ih =>
    rw [HotTier.evictLoop]
    split
    · cases htail : h.tail with
      | none => exact ⟨⟨order, hg⟩, fun _ _ hc => hc⟩
      | some victim =>
        have hlast : order.getLast? = some victim := hg.linked.tail.symm.trans htail
        obtain ⟨l, rfl⟩ := getLast?_eq_some_iff.1 hlast
        obtain ⟨hev, hsub⟩ := hg.evict
        obtain ⟨hgood, hsub'⟩ := ih hev
        exact ⟨hgood, fun e c hc => hsub e c (hsub' e c hc)⟩
    · exact ⟨⟨order, hg⟩, fun _ _ hc => hc⟩

theorem evictLoop_ends {turns : ℕ} {order : List ℕ} (hg : Good h order)
    (hturns : order.length ≤ turns) :
    (HotTier.evictLoop turns h).bytes ≤ (HotTier.evictLoop turns h).capacityBytes ∨
      (HotTier.evictLoop turns h).tail = none := by
  induction turns generalizing h order with
  | zero =>
    have hnil : order = [] := eq_nil_of_length_eq_zero (Nat.le_zero.1 hturns)
    subst hnil
    exact .inr hg.linked.tail
  | succ turns ih =>
    rw [HotTier.evictLoop]
    split
    · cases htail : h.tail with
      | none => exact .inr htail
      | some victim =>
        have hlast : order.getLast? = some victim := hg.linked.tail.symm.trans htail
        obtain ⟨l, rfl⟩ := getLast?_eq_some_iff.1 hlast
        refine ih hg.evict.1 ?_
        rw [length_append, length_singleton] at hturns
        omega
    · rename_i hle
      exact .inl (not_lt.1 hle)

variable (hg : Good h order)

include hg

theorem length_le : order.length ≤ h.nodes.length := by
  have hsub : order.toFinset ⊆ Finset.range h.nodes.length := by
    intro i hi
    exact Finset.mem_range.2 (hg.range i (mem_toFinset.1 hi))
  have := Finset.card_le_card hsub
  rwa [toFinset_card_of_nodup hg.linked.nodup, Finset.card_range] at this

theorem evictUntilUnderCapacity_ends :
    h.evictUntilUnderCapacity.bytes ≤ h.evictUntilUnderCapacity.capacityBytes ∨
      h.evictUntilUnderCapacity.tail = none :=
  hg.evictLoop_ends hg.length_le

/-! ### New blobs -/

theorem outside {g : HotTier} (hidx : idx ∉ order)
    (hcap : g.capacityBytes = h.capacityBytes) (hmap : g.map = h.map) (hhead : g.head = h.head)
    (htail : g.tail = h.tail) (hnodes : ∀ j, j ≠ idx → g.nodes[j]? = h.nodes[j]?)
    (hlen : h.nodes.length ≤ g.nodes.length) (hfree : g.free.Sublist h.free) :
    Good g order ∧ ∀ e, g.lookup e = h.lookup e := by
  have hne : ∀ i ∈ order, i ≠ idx := fun i hi heq => hidx (heq ▸ hi)
  have hdata : ∀ i ∈ order, g.data i = h.data i := by
    intro i hi
    rw [data, data, hnodes i (hne i hi)]
  refine ⟨⟨?_, ?_, ?_, ?_, ?_, ?_⟩, ?_⟩
  · refine hg.linked.congr hhead htail ?_ ?_
    · intro i hi
      simp only [links, hnodes i (hne i hi)]
    · intro i hi
      simp only [links, hnodes i (hne i hi)]
  · intro d i
    rw [hmap, hg.map d i]
    constructor
    · rintro ⟨hi, b, hb⟩
      exact ⟨hi, b, by rw [hdata i hi, hb]⟩
    · rintro ⟨hi, b, hb⟩
      exact ⟨hi, b, by rw [← hdata i hi, hb]⟩
  · intro i hi
    exact lt_of_lt_of_le (hg.range i hi) hlen
  · intro i hi
    obtain ⟨hlt, hno⟩ := hg.free i (hfree.subset hi)
    exact ⟨lt_of_lt_of_le hlt hlen, hno⟩
  · exact hg.freeOnce.sublist hfree
  · intro hzero
    exact hg.zero (hcap ▸ hzero)
  · intro e
    rw [HotTier.lookup, HotTier.lookup, hmap]
    cases hi : h.map.get? e with
    | none => rfl
    | some i =>
      show (g.data i).map Prod.snd = (h.data i).map Prod.snd
      rw [hdata i ((hg.map e i).1 hi).1]

theorem alloc {b : Bytes} (ha : h.alloc d b = (idx, h')) :
    Good h' order ∧ idx ∉ order ∧ idx ∉ h'.free ∧ h'.data idx = some (d, b) ∧
      h'.map = h.map ∧ h'.capacityBytes = h.capacityBytes ∧ ∀ e, h'.lookup e = h.lookup e := by
  rw [HotTier.alloc] at ha
  cases hfree : h.free with
  | nil =>
    rw [hfree] at ha
    cases ha
    have hidx : h.nodes.length ∉ order := fun hmem => lt_irrefl _ (hg.range _ hmem)
    obtain ⟨hgood, hlookup⟩ := hg.outside hidx
      (g := { h with nodes := h.nodes ++ [⟨d, b, none, none⟩], free := [] }) rfl rfl rfl rfl
      (fun j hj => by
        rcases Nat.lt_or_ge j h.nodes.length with hlt | hge
        · exact getElem?_append_left hlt
        rw [List.getElem?_eq_none hge, List.getElem?_eq_none]
        simp only [length_append, length_singleton]
        omega)
      (by simp) (nil_sublist _)
    refine ⟨hgood, hidx, not_mem_nil, ?_, rfl, rfl, hlookup⟩
    simp [data]
  | cons i free =>
    rw [hfree] at ha
    cases ha
    have hfi : idx ∈ h.free := by simp [hfree]
    obtain ⟨hlt, hidx⟩ := hg.free idx hfi
    have hsub : free.Sublist h.free := by
      rw [hfree]
      exact sublist_cons_self _ _
    obtain ⟨hgood, hlookup⟩ := hg.outside hidx
      (g := { h with nodes := h.nodes.set idx ⟨d, b, none, none⟩, free := free })
      rfl rfl rfl rfl
      (fun j hj => getElem?_set_ne (Ne.symm hj))
      (by simp) hsub
    have honce := hg.freeOnce
    rw [hfree] at honce
    refine ⟨hgood, hidx, (nodup_cons.1 honce).1, ?_, rfl, rfl, hlookup⟩
    simp [data, hlt]

theorem hold {b : Bytes} (hidx : idx ∉ order) (hfree : idx ∉ h.free)
    (hdata : h.data idx = some (d, b)) (hd : h.map.get? d = none) (hcap : h.capacityBytes ≠ 0)
    (n : ℕ) :
    Good (({ h with map := h.map.insert d idx, bytes := n } : HotTier).pushToHead idx)
        (idx :: order) ∧
      ∀ e, (({ h with map := h.map.insert d idx, bytes := n } : HotTier).pushToHead idx).lookup e =
        if e = d then some b else h.lookup e := by
  have hsame := sameBlobs_pushToHead { h with map := h.map.insert d idx, bytes := n } idx
  have hdata' := hsame.data
  refine ⟨⟨?_, ?_, ?_, ?_, ?_, ?_⟩, ?_⟩
  · have hlt : idx < ({ h with map := h.map.insert d idx, bytes := n } : HotTier).nodes.length :=
      data_lt hdata
    rw [links_pushToHead hlt]
    · exact hg.linked.pushFront hidx
    · intro p hp
      exact hg.range p (mem_of_mem_head? (hg.linked.head.symm.trans hp))
  · intro e i
    rw [hsame.map, hdata' i]
    show (h.map.insert d idx).get? e = some i ↔ i ∈ idx :: order ∧ ∃ b, h.data i = some (e, b)
    rw [OrdMap.get?_insert, mem_cons]
    by_cases he : e = d
    · subst he
      rw [if_pos rfl]
      constructor
      · intro hi
        cases hi
        exact ⟨Or.inl rfl, b, hdata⟩
      rintro ⟨rfl | hi, b', hb'⟩
      · rfl
      · rw [(hg.map e i).2 ⟨hi, b', hb'⟩] at hd
        cases hd
    · rw [if_neg he, hg.map e i]
      constructor
      · rintro ⟨hi, hb⟩
        exact ⟨Or.inr hi, hb⟩
      rintro ⟨rfl | hi, b', hb'⟩
      · rw [hdata] at hb'
        cases hb'
        exact absurd rfl he
      · exact ⟨hi, b', hb'⟩
  · intro i hi
    rw [hsame.length]
    rcases mem_cons.1 hi with rfl | hi
    · exact data_lt hdata
    · exact hg.range i hi
  · intro i hi
    rw [hsame.free] at hi
    rw [hsame.length]
    obtain ⟨hlt, hno⟩ := hg.free i hi
    refine ⟨hlt, ?_⟩
    rw [mem_cons, not_or]
    exact ⟨fun heq => hfree (heq ▸ hi), hno⟩
  · rw [hsame.free]
    exact hg.freeOnce
  · intro hzero
    rw [hsame.capacityBytes] at hzero
    exact absurd hzero hcap
  · intro e
    rw [hsame.lookup]
    show ((h.map.insert d idx).get? e).bind (fun i => (h.data i).map Prod.snd) = _
    rw [OrdMap.get?_insert]
    split
    · show (h.data idx).map Prod.snd = some b
      rw [hdata]
      rfl
    · rfl

omit hg

theorem data_refresh {b₀ : Bytes} (hb₀ : h.data idx = some (d, b₀)) (b : Bytes) (i : ℕ) :
    (h.modify idx fun s => { s with bytes := b }).data i =
      if idx = i then some (d, b) else h.data i := by
  rw [data, getElem?_modify]
  by_cases hii : idx = i
  · subst hii
    rw [if_pos rfl, if_pos rfl]
    obtain ⟨s, hs, hsd⟩ := Option.map_eq_some_iff.1 hb₀
    cases hsd
    rw [hs]
    rfl
  · rw [if_neg hii, if_neg hii]
    rfl

theorem refresh (hg : Good h order) (hi : h.map.get? d = some idx) (b : Bytes) (n : ℕ) :
    Good { h.modify idx (fun s => { s with bytes := b }) with bytes := n } order ∧
      ∀ e, ({ h.modify idx (fun s => { s with bytes := b }) with bytes := n } : HotTier).lookup e =
        if e = d then some b else h.lookup e := by
  obtain ⟨hidx, b₀, hb₀⟩ := (hg.map d idx).1 hi
  have hdata := data_refresh hb₀ b
  have hlink : ∀ i : ℕ, ((h.modify idx fun s => { s with bytes := b }).nodes[i]?).bind Slot.prev =
        (h.nodes[i]?).bind Slot.prev ∧
      ((h.modify idx fun s => { s with bytes := b }).nodes[i]?).bind Slot.next =
        (h.nodes[i]?).bind Slot.next := by
    intro i
    rw [getElem?_modify]
    split
    · cases h.nodes[i]? <;> exact ⟨rfl, rfl⟩
    · exact ⟨rfl, rfl⟩
  refine ⟨⟨?_, ?_, ?_, ?_, hg.freeOnce, hg.zero⟩, ?_⟩
  · exact hg.linked.congr rfl rfl (fun i _ => (hlink i).1) fun i _ => (hlink i).2
  · intro e i
    show h.map.get? e = some i ↔ i ∈ order ∧ ∃ c, HotTier.data _ i = some (e, c)
    rw [hg.map e i]
    refine and_congr_right fun _ => ?_
    show _ ↔ ∃ c, (h.modify idx fun s => { s with bytes := b }).data i = some (e, c)
    rw [hdata]
    by_cases hii : idx = i
    · subst hii
      rw [if_pos rfl, hb₀]
      simp
    · rw [if_neg hii]
  · intro i hio
    rw [length_modify]
    exact hg.range i hio
  · intro i hif
    rw [length_modify]
    exact hg.free i hif
  · intro e
    show (h.map.get? e).bind
      (fun i => ((h.modify idx fun s => { s with bytes := b }).data i).map Prod.snd) = _
    by_cases he : e = d
    · subst he
      rw [if_pos rfl, hi]
      show ((h.modify idx _).data idx).map Prod.snd = _
      rw [hdata, if_pos rfl]
      rfl
    rw [if_neg he, HotTier.lookup]
    cases hj : h.map.get? e with
    | none => rfl
    | some j =>
      obtain ⟨-, c, hc⟩ := (hg.map e j).1 hj
      have hne : idx ≠ j := by
        rintro rfl
        rw [hb₀] at hc
        cases hc
        exact he rfl
      show ((h.modify idx _).data j).map Prod.snd = (h.data j).map Prod.snd
      rw [hdata, if_neg hne]

theorem put (hg : Good h order) (d : Digest) (b : Bytes) : (∃ order', Good (h.put d b) order') ∧
      ∀ e c, (h.put d b).lookup e = some c → if e = d then c = b else h.lookup e = some c := by
  rw [HotTier.put]
  split
  · rename_i hzero
    have hnil := hg.zero hzero
    subst hnil
    refine ⟨⟨[], hg⟩, ?_⟩
    intro e c hc
    rw [HotTier.lookup, Option.bind_eq_some_iff] at hc
    obtain ⟨i, hi, -⟩ := hc
    exact absurd ((hg.map e i).1 hi).1 not_mem_nil
  rename_i hcap
  have hfinal : ∀ {g : HotTier} {order' : List ℕ}, Good g order' →
      (∀ e, g.lookup e = if e = d then some b else h.lookup e) →
      (∃ order'', Good g.evictUntilUnderCapacity order'') ∧
        ∀ e c, g.evictUntilUnderCapacity.lookup e = some c →
          if e = d then c = b else h.lookup e = some c := by
    intro g order' hgood hlookup
    obtain ⟨hgood', hsub⟩ := hgood.evictLoop g.nodes.length
    refine ⟨hgood', ?_⟩
    intro e c hc
    have hbefore := hsub e c hc
    rw [hlookup] at hbefore
    split at hbefore
    · rename_i he
      rw [if_pos he]
      cases hbefore
      rfl
    · rename_i he
      rwa [if_neg he]
  cases hd : h.map.get? d with
  | some idx =>
    obtain ⟨hgood, hlookup⟩ := hg.refresh hd b
      (U64.saturatingAdd (h.bytes - (h.slotBytes idx).length) b.length)
    obtain ⟨hmoved, hsame⟩ := hgood.moveToHead ((hg.map d idx).1 hd).1
    exact hfinal hmoved fun e => (hsame.lookup e).trans (hlookup e)
  | none =>
    have hnot : h.lookup d = none := by
      rw [HotTier.lookup, hd]
      rfl
    simp only
    split
    · refine ⟨⟨order, hg⟩, ?_⟩
      intro e c hc
      split
      · rename_i he
        rw [he, hnot] at hc
        cases hc
      · exact hc
    · rcases ha : h.alloc d b with ⟨idx, g⟩
      obtain ⟨hgood, hidx, hfree, hdata, hmap, hcap', hlookup⟩ := hg.alloc ha
      obtain ⟨hheld, hlookup'⟩ := hgood.hold hidx hfree hdata (hmap ▸ hd) (hcap' ▸ hcap)
        (U64.saturatingAdd g.bytes b.length)
      refine hfinal hheld fun e => ?_
      rw [hlookup' e, hlookup e]

end Good

end HotTier

end Brokkr.Blobs
