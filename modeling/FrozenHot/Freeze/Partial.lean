import FrozenHot.Freeze.Remainder

/-! A partly frozen shard is a static set of entries and a smaller cache. -/

namespace FrozenHot
open Schemes ListShard

variable {α : Type}

/-- A read request to a static set of entries next to a reference cache, with the keys that
    leave. -/
def Reference.partly {V : Type} (cap : ℕ) (S : List (ℕ × V)) (C : List (ℕ × V)) (r : Bool × ℕ × V) :
    (Got V × Finset ℕ) × List (ℕ × V) :=
  match Policy.get S r.2.1 with
  | some w => ((⟨some w, none⟩, ∅), C)
  | none =>
    let o := Reference.read cap r.1 C r.2.1 r.2.2
    ((o.1, (C.map Prod.fst).toFinset \ (o.2.map Prod.fst).toFinset), o.2)

/-- A read request to a shard, with the keys that leave the map. -/
def FHList.read (κ : FHList) (σ : Shard α) (r : Bool × ℕ × α) :
    Except Fault ((Got (Option α) × Finset ℕ) × Shard α) := do
  let o ← Client.get (κ.find r.1 · r.2.1) (Shard.insert · r.2.1 (some r.2.2)) σ
  return ((o.1, σ.m_map.keys \ o.2.m_map.keys), o.2)

/-- A request as the reference sees it. -/
def FHList.seen (κ : FHList) (r : Bool × ℕ × α) : Bool × ℕ × Option α :=
  (κ.promotes r.1, r.2.1, some r.2.2)

namespace ListShard
variable {τ τ' : ListShard α} {L : List Item} {k : ℕ}

theorem Tidy.keys (hc : Tidy τ) : τ.m_map.keys =
    (τ.frozen.map Item.key).toFinset ∪ (τ.content.map Prod.fst).toFinset := by
  ext k
  rw [Finmap.mem_keys, hc.mem_iff, items, keys_content]
  simp

/-- What leaves the map is what leaves the main list. -/
theorem Tidy.victims (hc : Tidy τ) (hc' : Tidy τ') (hF : τ'.frozen = τ.frozen) :
    τ.m_map.keys \ τ'.m_map.keys =
      (τ.content.map Prod.fst).toFinset \ (τ'.content.map Prod.fst).toFinset := by
  have hnd := hc.nodup
  rw [items, List.map_append] at hnd
  have hdj := (List.nodup_append'.mp hnd).2.2
  rw [hc.keys, hc'.keys, hF]
  ext k
  simp only [Finset.mem_sdiff, Finset.mem_union, List.mem_toFinset, keys_content]
  constructor
  · rintro ⟨h1, h2⟩
    rw [not_or] at h2
    exact ⟨h1.resolve_left h2.1, h2.2⟩
  · rintro ⟨h1, h2⟩
    exact ⟨Or.inr h1, not_or.mpr ⟨fun h => hdj h h1, h2⟩⟩

theorem get_pairs {m : Finmap fun _ : ℕ => HashMapValue (Option α)} {x : Item}
    (hnd : (L.map Item.key).Nodup) (hx : x ∈ L) :
    Policy.get (L.map (pair m)) x.key = some (pair m x).2 := by
  obtain ⟨A, B, rfl⟩ := List.append_of_mem hx
  rw [List.map_append, List.map_cons] at hnd ⊢
  have hno : x.key ∉ (A.map (pair m)).map Prod.fst := by
    have := (List.nodup_middle.mp hnd).notMem
    simp only [List.mem_append, not_or] at this
    simpa [pair] using this.1
  exact Policy.get_middle hno

/-- The relation between a partly frozen shard and its reference: `S` are the frozen entries, `C`
    the entries of the main list, `N` is `m_maxSize`. -/
structure Partly (F : List Item) (S : List (ℕ × Option α)) (N : ℕ) (σ : Shard α)
    (C : List (ℕ × Option α)) (τ : ListShard α) : Prop where
  rep : Shard.Rep none σ τ
  roomy : Roomy τ
  clear : Clear τ
  frozen : τ.frozen = F
  static : τ.frozen.map (pair τ.m_map) = S
  maxSize : τ.m_maxSize = N
  content : τ.content = C

/-- A read request to a partly frozen shard. -/
theorem Partly.read {F : List Item} {S C : List (ℕ × Option α)} {N : ℕ} {σ : Shard α}
    (h : Partly F S N σ C τ) (κ : FHList) {r : Bool × ℕ × α} (hk : ValidKey r.2.1) :
    ∃ σ' τ', κ.read σ r = .ok ((Reference.partly (N - F.length) S C (κ.seen r)).1, σ') ∧
      Partly F S N σ' (Reference.partly (N - F.length) S C (κ.seen r)).2 τ' := by
  obtain ⟨lock, k, v⟩ := r
  obtain ⟨hr, hroom, hc, rfl, rfl, rfl, rfl⟩ := h
  have hnd := hc.nodup
  rw [items, List.map_append] at hnd
  by_cases hF : k ∈ τ.frozen.map Item.key
  · obtain ⟨x, hx, rfl⟩ := List.mem_map.mp hF
    have hg := get_pairs (m := τ.m_map) (List.nodup_append'.mp hnd).1 hx
    obtain ⟨σ', h1, hr'⟩ := hr.get hk κ lock (hc.read_frozen hx (κ.promotes lock) (some v))
    have hcore : σ'.toCore = σ.toCore := hr'.core.trans hr.core.symm
    refine ⟨σ', τ,
      ?_, by simpa [Reference.partly, FHList.seen, hg] using ⟨hr', hroom, hc, rfl, rfl, rfl, rfl⟩⟩
    simp [FHList.read, h1, Reference.partly, FHList.seen, hg, hcore]
  · have hg : Policy.get (τ.frozen.map (pair τ.m_map)) k = none :=
      Policy.get_none (by simpa [pair] using hF)
    obtain ⟨τ', h1, hroom', hs, hcont⟩ :=
      hroom.read (own_of_rep hr) hk hF (κ.promotes lock) (some v)
    have hc' : Clear τ' := by
      obtain ⟨g, τ₁, h2, hc'⟩ := hc.request (own_of_rep hr) hk (κ.promotes lock) v
      rw [h1] at h2
      cases h2
      exact hc'
    obtain ⟨σ', h2, hr'⟩ := hr.get hk κ lock h1
    have hv := hc.victims hroom'.tidy hs.frozen
    have hcap : τ.m_maxSize - τ.frozen.length = τ.capacity := rfl
    have hstatic : τ'.frozen.map (pair τ'.m_map) = τ.frozen.map (pair τ.m_map) := by
      rw [hs.frozen]
      refine List.map_congr_left fun x hx => ?_
      have hk := List.mem_map_of_mem (f := Item.key) hx
      have e1 := hc.filled x.key hk
      have e2 := hroom'.tidy.filled x.key (by rw [hs.frozen]; exact hk)
      rw [hs.fasthash, e1] at e2
      obtain ⟨w, hw⟩ := hc.lookup (List.mem_append_left τ.main hx)
      rw [hw] at e2
      obtain ⟨e, he, hev⟩ := Option.map_eq_some_iff.mp e2.symm
      simp [pair, hw, he, hev]
    refine ⟨σ', τ', ?_, ⟨hr', hroom', hc', hs.frozen, hstatic, hs.maxSize, ?_⟩⟩
    · simp only [FHList.read, h2, ok_bind, pure_eq_ok, Reference.partly, FHList.seen, hg, hcap]
      rw [← hcont, ← hv, hr.core, hr'.core]
    · simp only [Reference.partly, FHList.seen, hg, hcap]
      exact hcont

/-! ### The freeze -/

/-- With every item in the map, the scan freezes `limit + 1` items. -/
theorem split_take {m : Finmap fun _ : ℕ => HashMapValue (Option α)} {limit i : ℕ}
    (hL : ∀ x ∈ L, x.key ∈ m) (hi : i ≤ limit) (hlen : limit < i + L.length) :
    split m limit i L = some (L.take (limit + 1 - i), L.drop (limit + 1 - i)) := by
  induction L generalizing i with
  | nil => simp at hlen; omega
  | cons x L ih =>
    have hx := hL x (by simp)
    by_cases hcut : i + 1 > limit
    · obtain rfl : i = limit := by omega
      simp [split, hx]
    · have hsub : limit + 1 - i = (limit + 1 - (i + 1)) + 1 := by omega
      have := ih (i := i + 1) (fun y hy => hL y (by simp [hy])) (by omega)
        (by simp only [List.length_cons] at hlen; omega)
      rw [hsub]
      simp [split, hx, hcut, this]

/-- What `construct_ratio` does to a shard in plain mode. -/
theorem Clear.construct_ratio_eq {FC_size : ℕ} (hc : Clear τ) (hF : τ.frozen = [])
    (hFC : 20 ≤ FC_size) (hmax : FC_size ≤ τ.m_maxSize) (hlen : FC_size - 19 ≤ τ.main.length) :
    τ.construct_ratio FC_size = some { τ with
      frozen := τ.main.take (FC_size - 19), main := τ.main.drop (FC_size - 19)
      m_fasthash := copy τ.m_map τ.m_fasthash (τ.main.take (FC_size - 19))
      fast_hash_ready := true, fast_hash_construct := false, eviction_counter := 0 } := by
  have hall : ∀ x ∈ τ.main, x.key ∈ τ.m_map := fun x hx =>
    hc.mem_iff.mpr (List.mem_map_of_mem (List.mem_append_right _ hx))
  have hlim : sizeSub FC_size FC_RELAXATION = FC_size - 20 := if_pos hFC
  have hcut : FC_size - 20 + 1 - 0 = FC_size - 19 := by omega
  have hsp := split_take hall (by omega : 0 ≤ FC_size - 20) (by omega)
  rw [hcut, ← hlim] at hsp
  unfold ListShard.construct_ratio
  split
  · rename_i h
    rw [h, List.length_nil] at hlen; omega
  · rename_i x L h
    rw [if_pos ⟨hmax, hF, hall x (by simp [h])⟩, hsp]
    rfl

/-- Read requests keep a shard in plain mode. -/
theorem PlainMode.run {κ : FHList} {N : ℕ} {σ : Shard α}
    {hist : List ((Bool × FHCall α) × FHResp α)} (hpos : 1 ≤ N)
    (hrun : Run κ.call (fun _ c => ∃ k v, c.2 = .get k v ∧ ValidKey k) (Shard.init N) hist σ) :
    ∃ τ, PlainMode N σ τ ∧ Clear τ := by
  refine hrun.invariant (fun σ => ∃ τ, PlainMode N σ τ ∧ Clear τ)
    ⟨_, plainMode_init hpos, clear_init N⟩ fun s c o s' hi hP _ hs => ?_
  obtain ⟨τ, hi, hc⟩ := hi
  obtain ⟨lock, c⟩ := c
  obtain ⟨k, v, rfl, hk⟩ := hP
  obtain ⟨τ', hτ, hr'⟩ := hi.rep.call_ok (c := (lock, .get k v)) hk hs
  have hc' := hc.call (c := .get k v) (own_of_rep hi.rep) trivial hk hτ
  obtain ⟨τ₁, h1, hplain, -⟩ := hi.get hk (κ.promotes lock) (some v)
  simp only [ListShard.call, h1, Option.map_some, Option.some.injEq, Prod.mk.injEq] at hτ
  obtain ⟨-, rfl⟩ := hτ
  exact ⟨τ₁, hplain _ hr', hc'⟩

end ListShard

/-- After `construct_ratio` a frozen key hits with the value it had, the other keys hit, miss and
    leave as those of a reference cache of the places that are left, and `deconstruct` puts the
    frozen list back in front of what the main list has become. -/
theorem partial_freeze_refines (κ : FHList) {maxSize FC_size : ℕ} {σ₀ : Shard α}
    {hist : List ((Bool × FHCall α) × FHResp α)} (hFC : 20 ≤ FC_size) (hmax : FC_size ≤ maxSize)
    (h₀ : Run κ.call (fun _ c => ∃ k v, c.2 = .get k v ∧ ValidKey k) (Shard.init maxSize) hist σ₀) :
    ∃ L₀, Shard.Lists σ₀.heap none [] L₀ ∧ (FC_size - 19 ≤ L₀.length →
      let F := L₀.take (FC_size - 19)
      let ref := fun C r => Reference.partly (maxSize - F.length)
        (F.map (pair σ₀.m_map)) C (κ.seen r)
      let C₀ := (L₀.drop (FC_size - 19)).map (pair σ₀.m_map)
      ∃ σ₁, σ₀.construct_ratio FC_size = .ok σ₁ ∧
        Shard.Lists σ₁.heap none F (L₀.drop (FC_size - 19)) ∧
        ∀ rs : List (Bool × ℕ × α), (∀ r ∈ rs, ValidKey r.2.1) → ∃ σ₂ L₂,
          exec κ.read σ₁ rs = .ok ((answers ref C₀ rs).1, σ₂) ∧ Shard.Lists σ₂.heap none F L₂ ∧
          L₂.map (pair σ₂.m_map) = (answers ref C₀ rs).2 ∧
          ∃ σ₃, σ₂.deconstruct = .ok σ₃ ∧ Shard.Lists σ₃.heap none [] (F ++ L₂) ∧
            σ₃.m_map = σ₂.m_map ∧ σ₃.m_size = σ₂.m_size ∧ σ₃.m_fasthash = ∅ ∧
            σ₃.tier_ready = false ∧ σ₃.tier_no_insert = false ∧ σ₃.fast_hash_ready = false ∧
            σ₃.fast_hash_construct = false) := by
  obtain ⟨τ₀, hp, hc₀⟩ := PlainMode.run (κ := κ) (by omega : 1 ≤ maxSize) h₀
  obtain ⟨hr₀, hroom₀, hF₀, hready₀, rfl⟩ := hp
  refine ⟨τ₀.main, hF₀ ▸ hr₀.holds.lists, ?_⟩
  intro hlen F ref C₀
  have hratio := hc₀.construct_ratio_eq hF₀ hFC hmax hlen
  have hclear := hc₀.construct_ratio hratio
  obtain ⟨σ₁, h1, hr₁⟩ := hr₀.construct_ratio hratio
  have hFlen : F.length = FC_size - 19 := by
    rw [List.length_take]; omega
  have hpart : Partly F (F.map (pair σ₀.m_map)) τ₀.m_maxSize σ₁ C₀ _ :=
    ⟨hr₁, ⟨hclear.toTidy, hroom₀.tier, hroom₀.fits, by show F.length < τ₀.m_maxSize; omega⟩, hclear,
      rfl, by rw [hr₀.core], rfl, by simp only [C₀, hr₀.core]; rfl⟩
  refine ⟨σ₁, h1, hr₁.holds.lists, fun rs hrs => ?_⟩
  have hsim : Simulates κ.read ref (fun r : Bool × ℕ × α => ValidKey r.2.1)
      (fun σ C => ∃ τ, Partly F (F.map (pair σ₀.m_map)) τ₀.m_maxSize σ C τ) := by
    rintro σ C r hk ⟨τ, h⟩
    obtain ⟨σ', τ', h1, h2⟩ := h.read κ hk
    exact ⟨σ', h1, τ', h2⟩
  obtain ⟨σ₂, h2, τ₂, hp₂⟩ := hsim.exec hrs ⟨_, hpart⟩
  obtain ⟨σ₃, h3, hr₃⟩ := hp₂.rep.deconstruct
  have hne : τ₂.frozen ≠ [] := by
    rw [hp₂.frozen]
    intro h0
    rw [h0, List.length_nil] at hFlen; omega
  have htier := hp₂.roomy.tier
  have hno : τ₂.tier_no_insert = false := hp₂.roomy.tidy.tier.trans htier
  have hidle := hp₂.roomy.tidy.keeps.sound.idle
  have hdec : τ₂.deconstruct = { τ₂ with
      frozen := [], main := τ₂.frozen ++ τ₂.main, m_fasthash := ∅
      tier_no_insert := false, tier_ready := false, fast_hash_ready := false } := by
    simp [ListShard.deconstruct, hne, htier, hno]
  rw [hdec] at hr₃
  refine ⟨σ₂, τ₂.main, h2, hp₂.frozen ▸ hp₂.rep.holds.lists, ?_, σ₃, h3, ?_, ?_⟩
  · rw [hp₂.rep.core]; exact hp₂.content
  · have := hr₃.holds.lists
    simp only [hp₂.frozen] at this
    exact this
  · rw [hr₃.core, hp₂.rep.core]
    exact ⟨rfl, rfl, rfl, rfl, rfl, rfl, hidle⟩

/-- Two keys in a shard of 21 places, of which the more recent one is frozen and the other is
    not. -/
theorem partial_freeze_refines_two : ∃ (σ₀ σ₁ : Shard ℕ) (L₀ : List Item),
    Run FHList.LRU_FH.call (fun _ c => ∃ k v, c.2 = .get k v ∧ ValidKey k) (Shard.init 21)
      [((true, .get 3 7), .got ⟨none, some true⟩), ((true, .get 4 8), .got ⟨none, some true⟩)] σ₀ ∧
    Shard.Lists σ₀.heap none [] L₀ ∧ 20 - 19 ≤ L₀.length ∧ σ₀.construct_ratio 20 = .ok σ₁ ∧
    Shard.Lists σ₁.heap none (L₀.take 1) (L₀.drop 1) := by
  obtain ⟨σ₀, hrun, hnext⟩ : ∃ σ₀ : Shard ℕ,
      Run FHList.LRU_FH.call (fun _ c => ∃ k v, c.2 = .get k v ∧ ValidKey k) (Shard.init 21)
        [((true, .get 3 7), .got ⟨none, some true⟩), ((true, .get 4 8), .got ⟨none, some true⟩)]
          σ₀ ∧
      σ₀.heap.next .m_head = some (.node 1) :=
    ⟨_, .cons ⟨3, 7, rfl, by decide⟩ rfl (.cons ⟨4, 8, rfl, by decide⟩ rfl .nil), rfl⟩
  obtain ⟨L₀, hL, h⟩ := partial_freeze_refines .LRU_FH (by decide : 20 ≤ 20) (by decide) hrun
  have hlen : 20 - 19 ≤ L₀.length := by
    cases L₀ with
    | nil =>
      have := hL.main.seg.next_first
      rw [hnext] at this; simp at this
    | cons x L => simp
  obtain ⟨σ₁, h1, h2, -⟩ := h hlen
  exact ⟨σ₀, σ₁, L₀, hrun, hL, hlen, h1, h2⟩

end FrozenHot
