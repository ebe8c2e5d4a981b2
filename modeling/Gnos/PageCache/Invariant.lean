import Gnos.PageCache.Hash

/-! What holds of the cache between two operations.  `Inv` is about its shape: the pages on the
recency lists are the hashed ones, at most one for each key.  `Data` is about its content. -/

namespace Gnos.PageCache

open ProofKit Function List

variable {s s' : PageCache} {lru lru' : Bool → List ℕ} {chain : ℕ → List ℕ}
  {flat : ℕ → Bytes} {p : ℕ} {ctx off : ℕ}

def Listed (lru : Bool → List ℕ) (q : ℕ) : Prop := ∃ b, q ∈ lru b

/-- The page `q` is the one that a lookup of its own key finds. -/
def Cached (s : PageCache) (q : ℕ) : Prop := s.hashFind (s.gPool q).ctx (s.gPool q).off = some q

structure Inv (s : PageCache) (lru : Bool → List ℕ) (chain : ℕ → List ℕ) : Prop where
  lists : Lru s lru
  hash : Hashed s chain
  mem : ∀ q, q ∈ chain (s.bucketAt q) ↔ Listed lru q
  used : ∀ q, Listed lru q → q < s.gUsed
  bound : s.gUsed ≤ pcPages
  key : ∀ q r, Listed lru q → Listed lru r → (s.gPool q).ctx = (s.gPool r).ctx →
    (s.gPool q).off = (s.gPool r).off → q = r
  aligned : ∀ q, Listed lru q → pcPage ∣ (s.gPool q).off

section

variable (h : Inv s lru chain)
include h

theorem Inv.listed_of_mem {b q : ℕ} (hq : q ∈ chain b) : Listed lru q :=
  (h.mem q).mp (by rwa [h.hash.home b q hq])

theorem Inv.hashFind_eq_some : s.hashFind ctx off = some p ↔
      Listed lru p ∧ (s.gPool p).ctx = ctx ∧ (s.gPool p).off = off := by
  rw [h.hash.find]
  constructor
  · intro hFind
    have hMem := mem_of_find?_eq_some hFind
    have hKey := find?_some hFind
    exact ⟨h.listed_of_mem hMem, by simpa using hKey⟩
  · rintro ⟨hp, rfl, rfl⟩
    have hMem := (h.mem p).mpr hp
    obtain ⟨q, hFind⟩ : ∃ q, (chain (s.bucketAt p)).find? (fun q => decide
        ((s.gPool q).ctx = (s.gPool p).ctx ∧ (s.gPool q).off = (s.gPool p).off)) = some q := by
      rw [← Option.isSome_iff_exists, find?_isSome]
      exact ⟨p, hMem, by simp⟩
    have hKey : (s.gPool q).ctx = (s.gPool p).ctx ∧ (s.gPool q).off = (s.gPool p).off := by
      simpa using find?_some hFind
    have hq := h.listed_of_mem (mem_of_find?_eq_some hFind)
    rwa [h.key q p hq hp hKey.1 hKey.2] at hFind

theorem Inv.hashFind_eq_none : s.hashFind ctx off = none ↔
      ∀ q, Listed lru q → ¬((s.gPool q).ctx = ctx ∧ (s.gPool q).off = off) := by
  rw [Option.eq_none_iff_forall_ne_some]
  refine forall_congr' fun q => ?_
  rw [ne_eq, h.hashFind_eq_some, not_and]

theorem Inv.cached_iff : s.Cached p ↔ Listed lru p := by
  rw [Cached, h.hashFind_eq_some]
  simp

theorem Inv.listed_lt (hp : Listed lru p) : p < pcPages :=
  (h.used p hp).trans_le h.bound

end

theorem listed_touched {b : Bool} (hp : p ∈ lru b) (q : ℕ) :
    Listed (touched lru p) q ↔ Listed lru q := by
  have hErase : ∀ c, q ≠ p → (q ∈ (lru c).erase p ↔ q ∈ lru c) := fun c hq => mem_erase_of_ne hq
  rcases eq_or_ne q p with rfl | hq
  · exact ⟨fun _ => ⟨b, hp⟩, fun _ => ⟨true, by simp [touched]⟩⟩
  · simp [Listed, touched, hErase _ hq, hq]

theorem listed_demoted (n q : ℕ) : Listed (demoted lru n) q ↔ Listed lru q := by
  have hSplit : q ∈ lru true ↔ q ∈ (lru true).take n ∨ q ∈ (lru true).drop n := by
    rw [← mem_append, take_append_drop]
  simp only [Listed, Bool.exists_bool, demoted, mem_append, hSplit]
  tauto

theorem listed_erase (hn : ∀ b, (lru b).Nodup) (q : ℕ) :
    Listed (fun b => (lru b).erase p) q ↔ Listed lru q ∧ q ≠ p := by
  simp only [Listed, (hn _).mem_erase_iff]
  exact ⟨fun ⟨b, hne, hb⟩ => ⟨⟨b, hb⟩, hne⟩, fun ⟨⟨b, hb⟩, hne⟩ => ⟨b, hne, hb⟩⟩

theorem update_erase {ι : Type*} [DecidableEq ι] {l : ι → List ℕ} {i : ι} (h : ∀ j ≠ i, p ∉ l j) :
    update l i ((l i).erase p) = fun j => (l j).erase p := by
  funext j
  rcases eq_or_ne j i with rfl | hj
  · rw [update_self]
  · rw [update_of_ne hj, erase_of_not_mem (h j hj)]

theorem rest_drop (s : PageCache) (p : ℕ) : (s.drop p).gUsed = s.gUsed ∧
    (s.drop p).gRa = s.gRa ∧ (s.drop p).gRaVictim = s.gRaVictim := by
  have hLru := lruUnlink_frame (s.hashRemove p) p
  have hHash := hashRemove_frame s p
  exact ⟨hLru.used.trans (by rw [hHash.rest]), hLru.ra.trans (by rw [hHash.rest]),
    hLru.raVictim.trans (by rw [hHash.rest])⟩

section

variable (h : Inv s lru chain)
include h

/-- The invariant after a change that keeps every page's key. -/
theorem Inv.of_keys (hl : Lru s' lru') (hh : Hashed s' chain')
    (hKey : ∀ q, (s'.gPool q).ctx = (s.gPool q).ctx ∧ (s'.gPool q).off = (s.gPool q).off)
    (hMem : ∀ q, q ∈ chain' (s.bucketAt q) ↔ Listed lru' q) (hm : ∀ q, Listed lru' q → Listed lru q)
    (hu : s'.gUsed = s.gUsed) : Inv s' lru' chain' := by
  refine ⟨hl, hh, fun q => ?_, fun q hq => ?_, hu ▸ h.bound, fun q r hq hr => ?_, fun q hq => ?_⟩
  · rw [bucketAt, (hKey q).1, (hKey q).2, ← hMem, bucketAt]
  · rw [hu]
    exact h.used q (hm q hq)
  · rw [(hKey q).1, (hKey q).2, (hKey r).1, (hKey r).2]
    exact h.key q r (hm q hq) (hm r hr)
  · rw [(hKey q).2]
    exact h.aligned q (hm q hq)

theorem Inv.of_lruFrame (hf : LruFrame s s') (hl : Lru s' lru')
    (hm : ∀ q, Listed lru' q ↔ Listed lru q) : Inv s' lru' chain :=
  h.of_keys hl (h.hash.of_same hf.sameHash) (fun q => (hf.sameHash.page q).2)
    (fun q => (h.mem q).trans (hm q).symm) (fun q => (hm q).mp) hf.used

theorem Inv.of_same (hl : SameLru s s') (hh : SameHash s s') (hu : s'.gUsed = s.gUsed) :
    Inv s' lru chain :=
  h.of_keys (h.lists.of_same hl) (h.hash.of_same hh) (fun q => (hh.page q).2) h.mem (fun _ => id) hu

theorem Inv.touch (hp : Listed lru p) : Inv (s.lruTouch p) (touched lru p) chain := by
  obtain ⟨b, hb⟩ := hp
  exact h.of_lruFrame (lruTouch_frame s p) (h.lists.touch hb) (listed_touched hb)

theorem Inv.demote {n : ℕ} (hn : n ≤ (lru true).length) : Inv (demote n s) (demoted lru n) chain :=
  h.of_lruFrame (demote_frame n s) (h.lists.demote n hn) (listed_demoted n)

theorem Inv.modify (hp : ¬Listed lru p) (f : Page → Page) : Inv (s.modify p f) lru chain := by
  have hChain : ∀ b, p ∉ chain b := fun b hb => hp (h.listed_of_mem hb)
  have hPage : ∀ q, Listed lru q → (s.modify p f).gPool q = s.gPool q := fun q hq => by
    have hqp : q ≠ p := fun hEq => hp (hEq ▸ hq)
    rw [gPool_modify, if_neg hqp]
  refine ⟨h.lists.modify (fun b hb => hp ⟨b, hb⟩) f, h.hash.modify hChain f, fun q => ?_, h.used,
    h.bound, fun q r hq hr => ?_, fun q hq => ?_⟩
  · rcases eq_or_ne q p with rfl | hq
    · exact ⟨fun hm => absurd hm (hChain _), fun hm => absurd hm hp⟩
    · rw [bucketAt, gPool_modify, if_neg hq]
      exact h.mem q
  · rw [hPage q hq, hPage r hr]
    exact h.key q r hq hr
  · rw [hPage q hq]
    exact h.aligned q hq

theorem Inv.claim (hu : s.gUsed < pcPages) : Inv s.claim lru chain :=
  { h with
    lists := h.lists.of_same ⟨fun _ => ⟨rfl, rfl, rfl⟩, fun _ => ⟨rfl, rfl, rfl⟩⟩
    hash := h.hash.of_same ⟨fun _ => ⟨rfl, rfl, rfl⟩, rfl⟩
    used := fun q hq => (h.used q hq).trans (Nat.lt_succ_self _)
    bound := hu }

theorem Inv.drop (hp : Listed lru p) :
    Inv (s.drop p) (fun b => (lru b).erase p) (fun b => (chain b).erase p) := by
  obtain ⟨b, hb⟩ := hp
  have hHash := hashRemove_frame s p
  have hLru := lruUnlink_frame (s.hashRemove p) p
  have hListed := listed_erase (p := p) h.lists.nodup
  have hLists := (h.lists.of_same hHash.sameLru).unlink hb
  rw [update_erase fun c hc => h.lists.flag_ne hb hc] at hLists
  have hTable := (h.hash.remove ((h.mem p).mpr ⟨b, hb⟩)).of_same hLru.sameHash
  rw [update_erase fun c hc hm => hc (h.hash.home c p hm).symm] at hTable
  refine h.of_keys hLists hTable (fun q => ?_) (fun q => ?_) (fun q hq => ((hListed q).mp hq).1)
    (rest_drop s p).1
  · have hq := (hLru.sameHash.page q).2
    rw [hHash.fields q] at hq
    exact hq
  · rw [hListed, ← h.mem, (h.hash.nodup _).mem_erase_iff]
    exact and_comm

end

/-- The inactive list with `p` put at its end. -/
def pushed (lru : Bool → List ℕ) (p : ℕ) : Bool → List ℕ :=
  Function.update lru false (lru false ++ [p])

theorem listed_pushed (q : ℕ) : Listed (pushed lru p) q ↔ Listed lru q ∨ q = p := by
  simp [Listed, pushed]
  tauto

section

variable (h : Inv s lru chain) (hp : ¬Listed lru p)
include h hp

theorem Inv.chain_length_lt (hu : p < s.gUsed) (b : ℕ) : (chain b).length < pcPages := by
  have hNodup : (p :: chain b).Nodup :=
    nodup_cons.mpr ⟨fun hm => hp (h.listed_of_mem hm), h.hash.nodup b⟩
  have hSub : p :: chain b ⊆ range pcPages := by
    intro q hq
    rw [mem_range]
    rcases mem_cons.mp hq with rfl | hq
    · exact hu.trans_le h.bound
    · exact h.listed_lt (h.listed_of_mem hq)
  have hLen := (hNodup.subperm hSub).length_le
  rwa [length_range] at hLen

theorem Inv.add (hActive : (s.gPool p).active = false) (hu : p < s.gUsed)
    (hAligned : pcPage ∣ (s.gPool p).off)
    (hFresh : s.hashFind (s.gPool p).ctx (s.gPool p).off = none) :
    Inv ((s.hashInsert p).lruPush false p) (pushed lru p)
      (update chain (s.bucketAt p) (p :: chain (s.bucketAt p))) := by
  rw [h.hashFind_eq_none] at hFresh
  have hHash := hashInsert_frame s p
  have hLru := lruPush_frame (s.hashInsert p) false p
  set t := (s.hashInsert p).lruPush false p
  have hKey : ∀ q, (t.gPool q).ctx = (s.gPool q).ctx ∧
      (t.gPool q).off = (s.gPool q).off := fun q => by
    have hq := (hLru.sameHash.page q).2
    rw [hHash.fields q] at hq
    exact hq
  have hHome : ∀ q, t.bucketAt q = s.bucketAt q := fun q => by
    rw [bucketAt, (hKey q).1, (hKey q).2, bucketAt]
  have hUsed : t.gUsed = s.gUsed := hLru.used
  have hChain : ∀ b, p ∉ chain b := fun b hb => hp (h.listed_of_mem hb)
  have hLists := (h.lists.of_same hHash.sameLru).push (p := p) fun b hb => hp ⟨b, hb⟩
  rw [show ((s.hashInsert p).gPool p).active = false by
    rw [hHash.fields p]; exact hActive] at hLists
  refine ⟨hLists, (h.hash.insert hChain (h.chain_length_lt hp hu _)).of_same hLru.sameHash,
    fun q => ?_, fun q hq => ?_, hUsed ▸ h.bound, fun q r hq hr => ?_, fun q hq => ?_⟩
  · rw [hHome, listed_pushed, ← h.mem]
    rcases eq_or_ne (s.bucketAt q) (s.bucketAt p) with hb | hb
    · rw [hb, update_self, mem_cons]
      exact or_comm
    · have hqp : q ≠ p := fun hEq => hb (by rw [hEq])
      rw [update_of_ne hb]
      exact (or_iff_left hqp).symm
  · rw [hUsed]
    rcases (listed_pushed q).mp hq with hq | rfl
    · exact h.used q hq
    · exact hu
  · rw [(hKey q).1, (hKey q).2, (hKey r).1, (hKey r).2]
    intro hc ho
    rcases (listed_pushed q).mp hq with hq' | rfl <;> rcases (listed_pushed r).mp hr with hr' | rfl
    · exact h.key q r hq' hr' hc ho
    · exact absurd ⟨hc, ho⟩ (hFresh q hq')
    · exact absurd ⟨hc.symm, ho.symm⟩ (hFresh r hr')
    · rfl
  · rw [(hKey q).2]
    rcases (listed_pushed q).mp hq with hq | rfl
    · exact h.aligned q hq
    · exact hAligned

theorem Inv.install (hu : p < s.gUsed) (hAligned : pcPage ∣ off)
    (hFresh : s.hashFind ctx off = none) :
    ∃ chain', Inv (s.install p ctx off) (pushed lru p) chain' := by
  have hSet := h.modify hp fun q =>
    { q with ctx, off, active := false, dirty := false, ra := false, wr := false, next := none }
  refine ⟨_, hSet.add hp ?_ hu ?_ ?_⟩
  · simp [gPool_modify]
  · simpa [gPool_modify] using hAligned
  · rw [h.hashFind_eq_none] at hFresh
    rw [hSet.hashFind_eq_none]
    intro q hq
    have hqp : q ≠ p := fun hEq => hp (hEq ▸ hq)
    simpa [gPool_modify, hqp] using hFresh q hq

end

end Gnos.PageCache
