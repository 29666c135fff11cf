/-
# `calloc` (`libc/stdlib.c`)

`calloc` multiplies two 32-bit numbers, and looks for an overflow only AFTER the product has wrapped, by
dividing it back.  `mul32_div_ne_iff` of `Lib.Word` says that this finds every overflow and nothing else.

What `calloc` then does is up to `kmalloc` and `memset`, so `calloc` is written over the two.  Here
they run on a machine that writes down each request made of `kmalloc` (`Watched`): the allocator answers
as it likes and may do to memory what it likes, `memset` is the one of `libc/string.c`.
`calloc_check_exact` says which requests there are and which bytes are cleared.

The `calloc` of `Memory.HeapSizes` is the same code over the kernel heap (`heap_calloc_eq`); there the
cleared bytes lie in the allocation, after any history of the heap (`heap_calloc_zeroed`).
-/
import JarvOs.Memory.HeapSizes

namespace JarvOs.Libc

open JarvOs.Lib JarvOs.Memory

variable {σ : Type}

/-! ## 1. The code -/

/-- `calloc` -/
def calloc (kmalloc : σ → Nat → Option (Nat × σ)) (memset : σ → Nat → UInt8 → Nat → Option σ)
    (s : σ) (nmemb size : Nat) : Option (Nat × σ) := do
  let total := mul32 nmemb size
  if nmemb ≠ 0 ∧ total / nmemb ≠ size then some (0, s)
  else
    let (ptr, s) ← kmalloc s total
    if ptr ≠ 0 then
      let s ← memset s ptr 0 total
      some (ptr, s)
    else some (ptr, s)

/-- On the kernel heap. -/
theorem heap_calloc_eq (E : HeapEnv σ) (h : HeapState σ) (nmemb size : Nat) :
    E.calloc h nmemb size = calloc E.kmalloc
      (fun h p x n => (E.memset h.mach p x n).map (fun m => { h with mach := m })) h nmemb size := by
  simp only [HeapEnv.calloc, calloc, Option.bind_eq_bind, Option.map_eq_bind, Option.bind_assoc,
    Function.comp_def, Option.bind_some]

/-! ## 2. The check -/

section Check

variable {kmalloc : σ → Nat → Option (Nat × σ)} {memset : σ → Nat → UInt8 → Nat → Option σ} {s : σ}
  {nmemb size : Nat}

theorem calloc_of_overflow (hbig : 2 ^ 32 ≤ nmemb * size) :
    calloc kmalloc memset s nmemb size = some (0, s) := by
  rw [calloc, if_pos (mul32_div_ne_iff.mpr hbig)]

theorem calloc_of_fits (hfits : nmemb * size < 2 ^ 32) {p : Nat} {t : σ}
    (halloc : kmalloc s (nmemb * size) = some (p, t)) :
    calloc kmalloc memset s nmemb size =
      if p ≠ 0 then (memset t p 0 (nmemb * size)).map (fun t => (p, t)) else some (p, t) := by
  have hcheck : ¬ (nmemb ≠ 0 ∧ mul32 nmemb size / nmemb ≠ size) :=
    mul32_div_ne_iff.not.mpr (by omega)
  rw [calloc, if_neg hcheck, mul32_of_lt hfits, halloc]
  simp only [Option.bind_eq_bind, Option.bind_some, Option.map_eq_bind, Function.comp_def]

end Check

/-! ## 3. Requests and bytes -/

/-- Memory, and what has been asked of `kmalloc`. -/
structure Watched where
  mem : BitVec 32 → UInt8
  requests : List Nat

/-- Any allocator: what it returns, and the memory it leaves. -/
abbrev Allocator := (BitVec 32 → UInt8) → Nat → BitVec 32 × (BitVec 32 → UInt8)

def Watched.kmalloc (alloc : Allocator) (w : Watched) (n : Nat) : Option (Nat × Watched) :=
  some ((alloc w.mem n).1.toNat, ⟨(alloc w.mem n).2, w.requests ++ [n]⟩)

def Watched.memset (w : Watched) (p : Nat) (x : UInt8) (n : Nat) : Option Watched :=
  (ram.memset w.mem p x n).map (fun m => { w with mem := m })

/-- **The check of `calloc` is exact.**  For every allocator, every memory and all 32-bit arguments:
`kmalloc` is called if and only if the product is below 2^32; then it is called once, for exactly the
product, and if it returns a pointer, exactly that many bytes from there on are cleared.  Otherwise
`calloc` returns NULL and nothing has happened. -/
theorem calloc_check_exact (alloc : Allocator) (mem : BitVec 32 → UInt8) (nmemb size : BitVec 32) :
    ∃ (p : BitVec 32) (w : Watched),
      calloc (Watched.kmalloc alloc) Watched.memset ⟨mem, []⟩ nmemb.toNat size.toNat =
        some (p.toNat, w) ∧
      (w.requests ≠ [] ↔ nmemb.toNat * size.toNat < 2 ^ 32) ∧
      (nmemb.toNat * size.toNat < 2 ^ 32 →
        w.requests = [nmemb.toNat * size.toNat] ∧
        p = (alloc mem (nmemb.toNat * size.toNat)).1 ∧
        w.mem = if p = 0 then (alloc mem (nmemb.toNat * size.toNat)).2
          else fill (alloc mem (nmemb.toNat * size.toNat)).2 p 0 (nmemb.toNat * size.toNat)) ∧
      (2 ^ 32 ≤ nmemb.toNat * size.toNat → p = 0 ∧ w.mem = mem) := by
  generalize nmemb.toNat = nmemb, size.toNat = size
  rcases Nat.lt_or_ge (nmemb * size) (2 ^ 32) with hfits | hbig
  · have hrun : calloc (Watched.kmalloc alloc) Watched.memset ⟨mem, []⟩ nmemb size = _ :=
      calloc_of_fits hfits rfl
    have hasked : [nmemb * size] ≠ [] ↔ nmemb * size < 2 ^ 32 :=
      ⟨fun _ => hfits, fun _ => List.cons_ne_nil _ _⟩
    generalize alloc mem (nmemb * size) = r at hrun ⊢
    obtain ⟨p, mem'⟩ := r
    rcases eq_or_ne p 0 with rfl | hp
    · exact ⟨0, ⟨mem', [nmemb * size]⟩, hrun, hasked, fun _ => ⟨rfl, rfl, rfl⟩, by omega⟩
    · have hpn : p.toNat ≠ 0 := fun h0 => hp (BitVec.eq_of_toNat_eq h0)
      have hset := ram_memset 0 (nmemb * size) mem' p hfits.le
      rw [if_pos hpn, Watched.memset, hset] at hrun
      exact ⟨p, ⟨fill mem' p 0 (nmemb * size), [nmemb * size]⟩, hrun, hasked,
        fun _ => ⟨rfl, rfl, (if_neg hp).symm⟩, by omega⟩
  · exact ⟨0, ⟨mem, []⟩, calloc_of_overflow hbig, ⟨fun h => absurd rfl h, by omega⟩, by omega,
      fun _ => ⟨rfl, rfl⟩⟩

/-! ## 4. The kernel heap -/

/-- **Cleared and inside the allocation.**  After any history of the heap in which no request wraps, a
call of `calloc` returns NULL or room for the product, all zeros. -/
theorem heap_calloc_zeroed (m : Flat) (hm : m.supply.countP Option.isSome ≤ numberOfPages)
    (s : HeapRun Flat) (hreach : Reach (clientStep flatEnv) (ClientLegal flatEnv) (heapBoot m) s)
    {nmemb size : Nat} (hok : nmemb * size ≤ 0xFFFFEFF0 ∨ 2 ^ 32 ≤ nmemb * size) :
    ∃ r h', flatEnv.calloc s.heap nmemb size = some (r, h') ∧
      (r ≠ 0 → Sized flatEnv h' r (nmemb * size) ∧
        ∀ i < nmemb * size, flatEnv.get h'.mach (r + i) = some 0) := by
  obtain ⟨k, bs, hI, hl⟩ := runInv_client flat_laws (m := m) hm hreach
  obtain ⟨r, h', hcall, -, -, -, -, hcleared⟩ := calloc_cleared flat_laws hI hl hok
  exact ⟨r, h', hcall, hcleared⟩

end JarvOs.Libc
