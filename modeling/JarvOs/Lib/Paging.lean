/-
# Two-level page tables

The x86 walk with 4 KB pages, on a physical memory of bytes.  A directory and a table are each one
page of 1024 words, so what the walk reads is a function `Tables` from page NUMBERS and indices to
words; `tables mem` is that function for a memory, and a word store at an aligned address is a
point update of it (`tables_setWord`).  Everything else here is about `Tables` alone: entries and
the walk, and the two words a walk depends on (`entry_congr`).
-/
import JarvOs.Lib.Bytes

namespace JarvOs.Lib

/-! ## 1. Physical memory -/

/-- Physical memory. -/
abbrev Mem := Nat → UInt8

/-- The word at an address. -/
def pword (mem : Mem) (a : Nat) : Nat := word (mem a) (mem (a + 1)) (mem (a + 2)) (mem (a + 3))

/-- Storing a byte. -/
def setByte (mem : Mem) (a : Nat) (x : UInt8) : Mem := fun b => if b = a then x else mem b

/-- Storing a word. -/
def setWord (mem : Mem) (a v : Nat) : Mem :=
  fun b => if a ≤ b ∧ b < a + 4 then byteOf v (b - a) else mem b

theorem pword_lt (mem : Mem) (a : Nat) : pword mem a < 2 ^ 32 := word_lt _ _ _ _

theorem pword_setWord_same (mem : Mem) (a : Nat) {v : Nat} (hv : v < 2 ^ 32) :
    pword (setWord mem a v) a = v := by
  have h : ∀ k < 4, setWord mem a v (a + k) = byteOf v k := fun k hk => by
    rw [setWord, if_pos (by omega), Nat.add_sub_cancel_left]
  rw [pword, show setWord mem a v a = byteOf v 0 from h 0 (by norm_num), h 1 (by norm_num),
    h 2 (by norm_num), h 3 (by norm_num), word_byteOf, Nat.mod_eq_of_lt hv]

theorem pword_setWord_apart (mem : Mem) {a b : Nat} (v : Nat) (h : b + 4 ≤ a ∨ a + 4 ≤ b) :
    pword (setWord mem a v) b = pword mem b := by
  have hb : ∀ k < 4, setWord mem a v (b + k) = mem (b + k) := fun k hk => by
    rw [setWord, if_neg (by omega)]
  rw [pword, pword, show setWord mem a v b = mem b from hb 0 (by norm_num), hb 1 (by norm_num),
    hb 2 (by norm_num), hb 3 (by norm_num)]

/-- Four byte stores make a word store. -/
theorem setByte_four (mem : Mem) (a v : Nat) :
    setByte (setByte (setByte (setByte mem a (byteOf v 0)) (a + 1) (byteOf v 1)) (a + 2)
      (byteOf v 2)) (a + 3) (byteOf v 3) = setWord mem a v := by
  funext b
  simp only [setByte, setWord]
  by_cases hb : a ≤ b ∧ b < a + 4
  · rw [if_pos hb]
    obtain ⟨k, rfl⟩ : ∃ k, b = a + k := ⟨b - a, by omega⟩
    have hk : k < 4 := by omega
    interval_cases k <;> simp
  · rw [if_neg hb, if_neg (by omega), if_neg (by omega), if_neg (by omega), if_neg (by omega)]

/-! ## 2. Pages of words -/

/-- So that a number is the index of a word, modulo the size of a page. -/
instance wordsOfPage : NeZero 1024 := ⟨by decide⟩

/-- Physical memory as pages of 1024 words. -/
abbrev Tables := Nat → Fin 1024 → Nat

/-- The pages of a memory. -/
def tables (mem : Mem) : Tables := fun q i => pword mem (4096 * q + 4 * i)

/-- One word replaced. -/
def Tables.set (W : Tables) (q : Nat) (i : Fin 1024) (v : Nat) : Tables :=
  fun q' i' => if q' = q ∧ i' = i then v else W q' i'

variable {W W' : Tables} {q d t : Nat} {i j : Fin 1024}

@[simp] theorem set_same (W : Tables) (q : Nat) (i : Fin 1024) (v : Nat) : W.set q i v q i = v :=
  if_pos ⟨rfl, rfl⟩

theorem set_other {q' : Nat} {i' : Fin 1024} {v : Nat} (h : ¬ (q' = q ∧ i' = i)) :
    W.set q i v q' i' = W q' i' := if_neg h

theorem set_page_ne {q' : Nat} {i' : Fin 1024} {v : Nat} (h : q' ≠ q) :
    W.set q i v q' i' = W q' i' := set_other (fun hq => h hq.1)

theorem tables_lt (mem : Mem) (q : Nat) (i : Fin 1024) : tables mem q i < 2 ^ 32 := pword_lt _ _

/-- A word store at an aligned address is a point update. -/
theorem tables_setWord (mem : Mem) (q : Nat) (i : Fin 1024) {v : Nat} (hv : v < 2 ^ 32) :
    tables (setWord mem (4096 * q + 4 * i) v) = (tables mem).set q i v := by
  funext q' i'
  have hi := i.isLt
  have hi' := i'.isLt
  by_cases h : q' = q ∧ i' = i
  · obtain ⟨rfl, rfl⟩ := h
    rw [set_same]
    exact pword_setWord_same mem _ hv
  · rw [set_other h]
    refine pword_setWord_apart mem v ?_
    -- two different words of pages differ by at least one word
    rcases Nat.lt_trichotomy q' q with hq | hq | hq
    · omega
    · have : (i' : Nat) ≠ i := fun hii => h ⟨hq, Fin.ext hii⟩
      omega
    · omega

/-- A byte store is seen by its own page only. -/
theorem tables_setByte_ne (mem : Mem) {a p : Nat} (x : UInt8) (hp : p ≠ a / 4096) (i : Fin 1024) :
    tables (setByte mem a x) p i = tables mem p i := by
  have hi := i.isLt
  have hb : ∀ k < 4, setByte mem a x (4096 * p + 4 * i + k) = mem (4096 * p + 4 * i + k) :=
    fun k hk => if_neg (by omega)
  rw [tables, tables, pword, pword, show setByte mem a x (4096 * p + 4 * i) =
    mem (4096 * p + 4 * i) from hb 0 (by norm_num), hb 1 (by norm_num), hb 2 (by norm_num),
    hb 3 (by norm_num)]

theorem byteOf_pword (mem : Mem) (a : Nat) {k : Nat} (hk : k < 4) :
    byteOf (pword mem a) k = mem (a + k) := by
  have h0 := (mem a).toNat_lt
  have h1 := (mem (a + 1)).toNat_lt
  have h2 := (mem (a + 2)).toNat_lt
  have h3 := (mem (a + 3)).toNat_lt
  refine UInt8.toNat_inj.mp ?_
  rw [toNat_byteOf, pword, word]
  interval_cases k <;> simp only [Nat.add_zero, Nat.reducePow] <;> omega

/-- A byte is a part of a word of its page. -/
theorem mem_eq_byteOf (mem : Mem) (a : Nat) :
    mem a = byteOf (tables mem (a / 4096) (Fin.ofNat 1024 (a % 4096 / 4))) (a % 4) := by
  have haddr : 4096 * (a / 4096) + 4 * (a % 4096 / 4 % 1024) + a % 4 = a := by omega
  rw [tables, byteOf_pword _ _ (Nat.mod_lt a (by norm_num)), Fin.val_ofNat, haddr]

/-- The words of a page determine its bytes. -/
theorem mem_eq_of_tables {mem mem' : Mem} {a : Nat}
    (h : ∀ i, tables mem' (a / 4096) i = tables mem (a / 4096) i) : mem' a = mem a := by
  rw [mem_eq_byteOf mem', mem_eq_byteOf mem, h]

/-! ## 3. Entries and the walk -/

/-- The present bit. -/
def present (e : Nat) : Prop := e &&& 0x001 ≠ 0

/-- The writable bit. -/
def writable (e : Nat) : Prop := e &&& 0x002 ≠ 0

instance (e : Nat) : Decidable (present e) := inferInstanceAs (Decidable (_ ≠ _))

instance (e : Nat) : Decidable (writable e) := inferInstanceAs (Decidable (_ ≠ _))

/-- The page an entry points to. -/
def pfn (e : Nat) : Nat := e / 4096

theorem and_frame_mask {e : Nat} (he : e < 2 ^ 32) : e &&& 0xFFFFF000 = 4096 * pfn e := by
  rw [and_page_mask he, pfn, Nat.mul_comm]

theorem not_present_zero : ¬ present 0 := by decide

theorem present_iff (e : Nat) : present e ↔ e.testBit 0 = true := and_two_pow_ne_zero e 0

theorem writable_iff (e : Nat) : writable e ↔ e.testBit 1 = true := and_two_pow_ne_zero e 1

theorem present_or (e r : Nat) : present (e ||| r) ↔ present e ∨ present r := by
  simp only [present_iff, Nat.testBit_or, Bool.or_eq_true]

theorem writable_or (e r : Nat) : writable (e ||| r) ↔ writable e ∨ writable r := by
  simp only [writable_iff, Nat.testBit_or, Bool.or_eq_true]

theorem pfn_or {r : Nat} (e : Nat) (hr : r < 4096) : pfn (e ||| r) = pfn e := or_low_div_page e hr

theorem pfn_page (q : Nat) : pfn (4096 * q) = q := Nat.mul_div_cancel_left q (by norm_num)

theorem pfn_mask {p : Nat} (hp : p < 2 ^ 32) : pfn (p &&& 0xFFFFF000) = pfn p := by
  rw [and_frame_mask hp, pfn_page]

/-- The directory index of an address. -/
def dirIdx (va : Nat) : Fin 1024 := Fin.ofNat 1024 (va / 2 ^ 22)

/-- The table index of an address. -/
def tabIdx (va : Nat) : Fin 1024 := Fin.ofNat 1024 (va / 4096)

theorem dirIdx_val {va : Nat} (h : va < 2 ^ 32) : (dirIdx va : Nat) = va / 2 ^ 22 := by
  simp only [dirIdx, Fin.val_ofNat]
  omega

theorem tabIdx_val (va : Nat) : (tabIdx va : Nat) = va / 4096 % 1024 := rfl

/-- The shifts and masks of the C. -/
theorem shift_dirIdx {va : Nat} (h : va < 2 ^ 32) : va >>> 22 = (dirIdx va : Nat) := by
  rw [dirIdx_val h, Nat.shiftRight_eq_div_pow]

theorem shift_tabIdx (va : Nat) : (va >>> 12) &&& 0x3FF = (tabIdx va : Nat) := by
  rw [tabIdx_val, Nat.shiftRight_eq_div_pow]
  exact Nat.and_two_pow_sub_one_eq_mod _ 10

/-- The two indices name the page of an address. -/
theorem idx_eq_iff {v w : Nat} (hv : v < 2 ^ 32) (hw : w < 2 ^ 32) :
    dirIdx v = dirIdx w ∧ tabIdx v = tabIdx w ↔ v / 4096 = w / 4096 := by
  rw [Fin.ext_iff, Fin.ext_iff, dirIdx_val hv, dirIdx_val hw, tabIdx_val, tabIdx_val]
  omega

/-- The present last-level entry for directory index `i` and table index `j`, if there is one. -/
def Tables.entry (W : Tables) (d : Nat) (i j : Fin 1024) : Option Nat :=
  if present (W d i) ∧ present (W (pfn (W d i)) j) then some (W (pfn (W d i)) j) else none

/-- The walk: the physical address of `va` in directory `d`. -/
def Tables.walk (W : Tables) (d va : Nat) : Option Nat :=
  (W.entry d (dirIdx va) (tabIdx va)).map (fun e => 4096 * pfn e + va % 4096)

theorem entry_of_present (h : present (W d i)) (h' : present (W (pfn (W d i)) j)) :
    W.entry d i j = some (W (pfn (W d i)) j) := if_pos ⟨h, h'⟩

theorem entry_eq_some {e : Nat} : W.entry d i j = some e ↔
    present (W d i) ∧ present e ∧ W (pfn (W d i)) j = e := by
  unfold Tables.entry
  split
  · rename_i h
    rw [Option.some.injEq]
    constructor
    · rintro rfl
      exact ⟨h.1, h.2, rfl⟩
    · rintro ⟨-, -, rfl⟩
      rfl
  · rename_i h
    constructor
    · intro h'
      exact absurd h' (by simp)
    · rintro ⟨h1, h2, rfl⟩
      exact absurd ⟨h1, h2⟩ h

theorem entry_of_absent (h : ¬ present (W d i)) : W.entry d i j = none :=
  if_neg (fun h' => h h'.1)

/-- An entry depends on one directory word and one table word. -/
theorem entry_congr (hd : W' d i = W d i)
    (ht : present (W d i) → W' (pfn (W d i)) j = W (pfn (W d i)) j) :
    W'.entry d i j = W.entry d i j := by
  by_cases hp : present (W d i)
  · unfold Tables.entry
    rw [hd, ht hp]
  · rw [entry_of_absent hp, entry_of_absent (hd ▸ hp)]

theorem walk_congr {va : Nat} (h : W'.entry d (dirIdx va) (tabIdx va) =
    W.entry d (dirIdx va) (tabIdx va)) : W'.walk d va = W.walk d va := by
  rw [Tables.walk, Tables.walk, h]

theorem walk_of_entry {va e : Nat} (h : W.entry d (dirIdx va) (tabIdx va) = some e) :
    W.walk d va = some (4096 * pfn e + va % 4096) := by
  rw [Tables.walk, h, Option.map_some]

end JarvOs.Lib
