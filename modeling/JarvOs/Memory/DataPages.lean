/-
# Pages that hold data

Frames come in two kinds: those that are directories or tables, which `VmInv` is about, and those
mapped somewhere above 80 MB, which hold data.  `DataInv` says what keeps the second kind apart from
the first and from each other: a data frame is neither free nor a table, and it is behind ONE page
of ONE directory.  So a write through one address space changes no table, and nothing any other
address sees.
-/
import JarvOs.Memory.AddressSpaces

namespace JarvOs.Memory

open JarvOs.Lib

variable {L : Layout} {T : Prop} {Low : Nat → Nat → Prop} {m m₁ m₂ : Machine}
  {spaces spaces' : List Nat} {q : Nat}

/-! ## 1. Writing to a data page -/

/-- Only page `q` of memory has changed, and the tables are in order. -/
structure DataStep (L : Layout) (Low : Nat → Nat → Prop) (spaces : List Nat) (q : Nat)
    (m m' : Machine) : Prop where
  inv : MachInv L Low m' spaces
  cr3 : m'.cr3 = m.cr3
  bitmap : m'.bitmap = m.bitmap
  off : ∀ p, p ≠ q → ∀ i, tables m'.mem p i = tables m.mem p i

theorem DataStep.trans (h₁ : DataStep L Low spaces q m m₁) (h₂ : DataStep L Low spaces q m₁ m₂) :
    DataStep L Low spaces q m m₂ :=
  ⟨h₂.inv, h₂.cr3.trans h₁.cr3, h₂.bitmap.trans h₁.bitmap,
    fun p hp i => (h₂.off p hp i).trans (h₁.off p hp i)⟩

/-- Writing to a page that is no directory changes nothing about what is in use. -/
theorem DataStep.inUse (h : DataStep L Low spaces q m m₁) (hq : ¬ InUse L (tables m.mem) spaces q)
    {p : Nat} (hp : InUse L (tables m₁.mem) spaces p) : InUse L (tables m.mem) spaces p :=
  inUse_congr (fun d hd i => h.off d (fun heq => hq (heq ▸ inUse_dir hd)) i) hp

/-- A change of memory that stays within a page that is not in use. -/
theorem DataStep.of_mem (hM : MachInv L Low m spaces) (hq : ¬ InUse L (tables m.mem) spaces q)
    {mem : Mem} (hoff : ∀ p, p ≠ q → ∀ i, tables mem p i = tables m.mem p i) :
    DataStep L Low spaces q m { m with mem := mem } := by
  refine ⟨⟨hM.paging, hM.cr3, hM.dir, hM.vm.congr (fun p hp j => hoff p ?_ j)⟩, rfl, rfl, hoff⟩
  rintro rfl
  exact hq (hp.elim Or.inl (fun h => Or.inr (Or.inl h)))

/-- No directory sees a write to a page that is not in use. -/
theorem DataStep.entry (hM : MachInv L Low m spaces) (hq : ¬ InUse L (tables m.mem) spaces q)
    (h : DataStep L Low spaces q m m₁) {d : Nat} (hd : d ∈ L.kpd :: spaces) (i j : Fin 1024) :
    (tables m₁.mem).entry d i j = (tables m.mem).entry d i j :=
  hM.vm.entry_congr hd (fun p hp => h.off p (fun heq => hq (heq ▸ hp)))

/-- A store to a page that is not in use. -/
theorem storeData_spec (hS : LowSpec T Low) (hM : MachInv L Low m spaces) (hlow : q < 20480)
    (hq : ¬ InUse L (tables m.mem) spaces q) (i : Fin 1024) {v : Nat} (hv : v < 2 ^ 32) :
    Ensures T (m.store32 (4096 * q + 4 * i) v) (DataStep L Low spaces q m) := by
  have hst := store32_low hS hM hlow i v
  have hi := i.isLt
  rw [add32_of_lt (by omega)] at hst
  refine hst.mono ?_
  rintro _ rfl
  exact .of_mem hM hq (fun p hp j => by rw [tables_setWord m.mem q i hv, set_page_ne hp])

/-- What is done in another address space, seen from this one. -/
theorem VmStep.inSpace (hM : MachInv L Low m spaces) {d : Nat}
    (h : VmStep L Low (vmmSwitchDirectory m (4096 * d)) spaces m₁ spaces) :
    VmStep L Low m spaces (vmmSwitchDirectory m₁ m.cr3) spaces := by
  refine ⟨?_, rfl, h.free, h.used, h.frame⟩
  rw [hM.cr3]
  exact h.inv.switch hM.dir

/-- Writing to a page that was free. -/
theorem VmStep.thenData (h : VmStep L Low m spaces m₁ spaces) (hq : q ∈ freeFrames m.bitmap)
    (hnot : ¬ InUse L (tables m₁.mem) spaces q) (hd : DataStep L Low spaces q m₁ m₂) :
    VmStep L Low m spaces m₂ spaces := by
  refine ⟨hd.inv, hd.cr3.trans h.cr3, by rw [hd.bitmap]; exact h.free,
    fun p hp => h.used p (hd.inUse hnot hp), fun p hu hf i => ?_⟩
  rw [hd.off p (fun heq => hf (heq ▸ hq)) i]
  exact h.frame p hu hf i

/-! ## 2. Data frames -/

/-- Every frame mapped above 80 MB is neither free nor a directory or table, and no two pages share
one. -/
structure DataInv (L : Layout) (W : Tables) (free : Finset Nat) (spaces : List Nat) : Prop where
  apart : ∀ d ∈ L.kpd :: spaces, ∀ {i j : Fin 1024} {e : Nat}, 20 ≤ (i : Nat) →
    W.entry d i j = some e → pfn e ∉ free ∧ ¬ InUse L W spaces (pfn e)
  inj : ∀ d ∈ L.kpd :: spaces, ∀ d' ∈ L.kpd :: spaces, ∀ {i j i' j' : Fin 1024} {e e' : Nat},
    20 ≤ (i : Nat) → 20 ≤ (i' : Nat) → W.entry d i j = some e → W.entry d' i' j' = some e' →
    pfn e = pfn e' → d = d' ∧ i = i' ∧ j = j'

theorem DataInv.of_empty {W : Tables} {free : Finset Nat}
    (h : ∀ d ∈ L.kpd :: spaces, ∀ i j : Fin 1024, 20 ≤ (i : Nat) → W.entry d i j = none) :
    DataInv L W free spaces := by
  refine ⟨fun d hd i j e hi he => ?_, fun d hd d' _ i j i' j' e e' hi _ he => ?_⟩
  · exact absurd (he.symm.trans (h d hd i j hi)) (by simp)
  · exact absurd (he.symm.trans (h d hd i j hi)) (by simp)

/-- A frame that is neither free nor in use stays so. -/
theorem VmStep.apart (h : VmStep L Low m spaces m₁ spaces')
    (hq : q ∉ freeFrames m.bitmap ∧ ¬ InUse L (tables m.mem) spaces q) :
    q ∉ freeFrames m₁.bitmap ∧ ¬ InUse L (tables m₁.mem) spaces' q :=
  ⟨fun hf => hq.1 (h.free hf), fun hu => (h.used q hu).elim hq.2 hq.1⟩

theorem DataStep.apart (h : DataStep L Low spaces q m m₁)
    (hq : ¬ InUse L (tables m.mem) spaces q) {p : Nat}
    (hp : p ∉ freeFrames m.bitmap ∧ ¬ InUse L (tables m.mem) spaces p) :
    p ∉ freeFrames m₁.bitmap ∧ ¬ InUse L (tables m₁.mem) spaces p :=
  ⟨by rw [h.bitmap]; exact hp.1, fun hu => hp.2 (h.inUse hq hu)⟩

/-- A step that adds no entry above 80 MB. -/
theorem DataInv.step (hD : DataInv L (tables m.mem) (freeFrames m.bitmap) spaces)
    (hapart : ∀ {p : Nat}, p ∉ freeFrames m.bitmap ∧ ¬ InUse L (tables m.mem) spaces p →
      p ∉ freeFrames m₁.bitmap ∧ ¬ InUse L (tables m₁.mem) spaces' p)
    (hold : ∀ d ∈ L.kpd :: spaces', ∀ {i j : Fin 1024} {e : Nat}, 20 ≤ (i : Nat) →
      (tables m₁.mem).entry d i j = some e →
      d ∈ L.kpd :: spaces ∧ (tables m.mem).entry d i j = some e) :
    DataInv L (tables m₁.mem) (freeFrames m₁.bitmap) spaces' := by
  refine ⟨fun d hd i j e hi he => ?_, fun d hd d' hd' i j i' j' e e' hi hi' he he' heq => ?_⟩
  · obtain ⟨hd₀, he₀⟩ := hold d hd hi he
    exact hapart (hD.apart d hd₀ hi he₀)
  · obtain ⟨hd₀, he₀⟩ := hold d hd hi he
    obtain ⟨hd₀', he₀'⟩ := hold d' hd' hi' he'
    exact hD.inj d hd₀ d' hd₀' hi hi' he₀ he₀' heq

/-- A step that puts a frame that was free behind one page. -/
theorem DataInv.map (hD : DataInv L (tables m.mem) (freeFrames m.bitmap) spaces)
    (h : VmStep L Low m spaces m₁ spaces) {d₀ e₀ : Nat} {i₀ j₀ : Fin 1024}
    (hfree : pfn e₀ ∈ freeFrames m.bitmap)
    (hnew : pfn e₀ ∉ freeFrames m₁.bitmap ∧ ¬ InUse L (tables m₁.mem) spaces (pfn e₀))
    (hentry : ∀ d ∈ L.kpd :: spaces, ∀ i j : Fin 1024, (tables m₁.mem).entry d i j =
      if d = d₀ ∧ i = i₀ ∧ j = j₀ then some e₀ else (tables m.mem).entry d i j) :
    DataInv L (tables m₁.mem) (freeFrames m₁.bitmap) spaces := by
  -- an entry is the new one, or an old one to a frame that was not free
  have hsplit : ∀ d ∈ L.kpd :: spaces, ∀ {i j : Fin 1024} {e : Nat},
      (tables m₁.mem).entry d i j = some e →
      (d = d₀ ∧ i = i₀ ∧ j = j₀) ∧ e = e₀ ∨ (tables m.mem).entry d i j = some e := by
    intro d hd i j e he
    rw [hentry d hd] at he
    split at he
    · exact Or.inl ⟨‹_›, (Option.some.inj he).symm⟩
    · exact Or.inr he
  have hne : ∀ d ∈ L.kpd :: spaces, ∀ {i j : Fin 1024} {e : Nat}, 20 ≤ (i : Nat) →
      (tables m.mem).entry d i j = some e → pfn e ≠ pfn e₀ :=
    fun d hd i j e hi he heq => (hD.apart d hd hi he).1 (heq ▸ hfree)
  refine ⟨fun d hd i j e hi he => ?_, fun d hd d' hd' i j i' j' e e' hi hi' he he' heq => ?_⟩
  · rcases hsplit d hd he with ⟨-, rfl⟩ | he
    · exact hnew
    · exact h.apart (hD.apart d hd hi he)
  · rcases hsplit d hd he with ⟨⟨rfl, rfl, rfl⟩, rfl⟩ | he <;>
      rcases hsplit d' hd' he' with ⟨⟨rfl, rfl, rfl⟩, rfl⟩ | he'
    · exact ⟨rfl, rfl, rfl⟩
    · exact absurd heq.symm (hne d' hd' hi' he')
    · exact absurd heq (hne d hd hi he)
    · exact hD.inj d hd d' hd' hi hi' he he' heq

end JarvOs.Memory
