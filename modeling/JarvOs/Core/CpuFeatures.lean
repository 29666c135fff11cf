/-
# The feature word (`hal_get_cpu_features` in `kernel/core/cpu.c`, `CPU_FEATURE_*` in `kernel/hal.h`)

The function makes 57 tests of the registers CPUID leaf 1 returns and, if the CPU has it, four of leaf
0x80000001; each test that succeeds sets the constant of its feature in one 32-bit word.  There are 59
features for 32 bits.  The constants of `hal.h` are the bit numbers of the features in their own
registers, near enough, and so the features of ECX and of leaf 0x80000001 get the bits that the features
of EDX already have.

`mem_features_iff` says what the bit of a feature means: that SOME feature with that constant is
reported.  So the word decodes CPUID exactly for the CPUs that report features with equal constants
together or not at all (`features_decode_iff`).
-/
import Mathlib

namespace JarvOs.Core

/-! ## 1. The code -/

/-- The features that are tested for. -/
inductive Feature
  | fpu | vme | de | pse | tsc | msr | pae | mce | cx8 | apic | sep | mtrr | pge | mca | cmov
  | pat | pse36 | psn | clflush | dts | mmx | fxsr | sse2 | ss | htt | tm | pbe | sse3 | pclmulqdq
  | dtes64 | monitor | dsCpl | vmx | smx | est | tm2 | ssse3 | cid | fma | cmpxchg16b | xtpr
  | pdcm | pcid | dca | sse41 | sse42 | x2apic | movbe | popcnt | tscDeadline | aes | xsave
  | osxsave | avx | f16c | rdrand | syscall | lm | nx
deriving DecidableEq, Repr

/-- `CPU_FEATURE_X` is `1 << X.bit`. -/
def Feature.bit : Feature → Nat
  | .fpu => 0 | .vme => 1 | .de => 2 | .pse => 3 | .tsc => 4 | .msr => 5 | .pae => 6 | .mce => 7
  | .cx8 => 8 | .apic => 9 | .sep => 10 | .mtrr => 11 | .pge => 12 | .mca => 13 | .cmov => 14
  | .pat => 15 | .pse36 => 16 | .psn => 17 | .clflush => 18 | .dts => 19 | .mmx => 21
  | .fxsr => 22 | .sse2 => 24 | .ss => 25 | .htt => 26 | .tm => 27 | .pbe => 29 | .sse3 => 0
  | .pclmulqdq => 1 | .dtes64 => 2 | .monitor => 3 | .dsCpl => 4 | .vmx => 5 | .smx => 6
  | .est => 7 | .tm2 => 8 | .ssse3 => 9 | .cid => 10 | .fma => 11 | .cmpxchg16b => 12
  | .xtpr => 13 | .pdcm => 14 | .pcid => 15 | .dca => 16 | .sse41 => 17 | .sse42 => 18
  | .x2apic => 19 | .movbe => 20 | .popcnt => 21 | .tscDeadline => 22 | .aes => 23 | .xsave => 24
  | .osxsave => 25 | .avx => 26 | .f16c => 27 | .rdrand => 28 | .syscall => 11 | .lm => 29
  | .nx => 20

def Feature.constant (f : Feature) : BitVec 32 := BitVec.twoPow 32 f.bit

/-- What the instruction returns. -/
structure Regs where
  eax : BitVec 32
  ebx : BitVec 32
  ecx : BitVec 32
  edx : BitVec 32

/-- The registers that are tested. -/
inductive Reg
  | ecx | edx
deriving DecidableEq, Repr

def Regs.get (r : Regs) : Reg → BitVec 32
  | .ecx => r.ecx
  | .edx => r.edx

/-- `if (reg & (1 << index)) features |= CPU_FEATURE_X;` -/
structure Test where
  reg : Reg
  index : Nat
  feature : Feature
deriving DecidableEq, Repr

/-- The bit that is tested is set. -/
def Test.Succeeds (t : Test) (r : Regs) : Prop := r.get t.reg &&& BitVec.twoPow 32 t.index ≠ 0

instance (t : Test) (r : Regs) : Decidable (t.Succeeds r) := inferInstanceAs (Decidable (_ ≠ _))

/-- The tests on leaf 1. -/
def basicTests : List Test :=
  [⟨.edx, 0, .fpu⟩, ⟨.edx, 1, .vme⟩, ⟨.edx, 2, .de⟩, ⟨.edx, 3, .pse⟩, ⟨.edx, 4, .tsc⟩,
   ⟨.edx, 5, .msr⟩, ⟨.edx, 6, .pae⟩, ⟨.edx, 7, .mce⟩, ⟨.edx, 8, .cx8⟩, ⟨.edx, 9, .apic⟩,
   ⟨.edx, 10, .sep⟩, ⟨.edx, 11, .mtrr⟩, ⟨.edx, 12, .pge⟩, ⟨.edx, 13, .mca⟩, ⟨.edx, 14, .cmov⟩,
   ⟨.edx, 15, .pat⟩, ⟨.edx, 16, .pse36⟩, ⟨.edx, 17, .psn⟩, ⟨.edx, 18, .clflush⟩, ⟨.edx, 19, .dts⟩,
   ⟨.edx, 21, .mmx⟩, ⟨.edx, 22, .fxsr⟩, ⟨.edx, 24, .sse2⟩, ⟨.edx, 25, .ss⟩, ⟨.edx, 26, .htt⟩,
   ⟨.edx, 27, .tm⟩, ⟨.edx, 29, .pbe⟩, ⟨.ecx, 0, .sse3⟩, ⟨.ecx, 1, .pclmulqdq⟩, ⟨.ecx, 2, .dtes64⟩,
   ⟨.ecx, 3, .monitor⟩, ⟨.ecx, 4, .dsCpl⟩, ⟨.ecx, 5, .vmx⟩, ⟨.ecx, 6, .smx⟩, ⟨.ecx, 7, .est⟩,
   ⟨.ecx, 8, .tm2⟩, ⟨.ecx, 9, .ssse3⟩, ⟨.ecx, 10, .cid⟩, ⟨.ecx, 11, .fma⟩,
   ⟨.ecx, 12, .cmpxchg16b⟩, ⟨.ecx, 13, .xtpr⟩, ⟨.ecx, 14, .pdcm⟩, ⟨.ecx, 15, .pcid⟩,
   ⟨.ecx, 15, .dca⟩, ⟨.ecx, 16, .sse41⟩, ⟨.ecx, 17, .sse42⟩, ⟨.ecx, 18, .x2apic⟩,
   ⟨.ecx, 19, .movbe⟩, ⟨.ecx, 20, .popcnt⟩, ⟨.ecx, 21, .tscDeadline⟩, ⟨.ecx, 22, .aes⟩,
   ⟨.ecx, 23, .xsave⟩, ⟨.ecx, 24, .osxsave⟩, ⟨.ecx, 25, .avx⟩, ⟨.ecx, 26, .f16c⟩,
   ⟨.ecx, 27, .rdrand⟩, ⟨.edx, 11, .syscall⟩]

/-- The tests on leaf 0x80000001. -/
def extendedTests : List Test :=
  [⟨.edx, 29, .lm⟩, ⟨.edx, 28, .syscall⟩, ⟨.edx, 26, .pae⟩, ⟨.edx, 20, .nx⟩]

/-- A sequence of tests. -/
def applyTests (r : Regs) (ts : List Test) (features : BitVec 32) : BitVec 32 :=
  ts.foldl (fun w t => if t.Succeeds r then w ||| t.feature.constant else w) features

/-- `hal_get_cpu_features`, on a CPU that answers `cpuid`. -/
def halGetCpuFeatures (cpuid : BitVec 32 → Regs) : BitVec 32 :=
  let features := applyTests (cpuid 1) basicTests 0
  if (cpuid 0x80000000).eax ≥ 0x80000001 then
    applyTests (cpuid 0x80000001) extendedTests features
  else features

/-! ## 2. What is reported -/

/-- The CPU reports `f` in a bit that the code associates with it.  (Two features have two.) -/
def Reports (cpuid : BitVec 32 → Regs) (f : Feature) : Prop :=
  (∃ t ∈ basicTests, t.feature = f ∧ t.Succeeds (cpuid 1)) ∨
    ((cpuid 0x80000000).eax ≥ 0x80000001 ∧
      ∃ t ∈ extendedTests, t.feature = f ∧ t.Succeeds (cpuid 0x80000001))

/-- The word has the constant of `f` set. -/
def Has (w : BitVec 32) (f : Feature) : Prop := w &&& f.constant ≠ 0

/-! ## 3. The word -/

theorem Feature.bit_lt (f : Feature) : f.bit < 32 := by
  cases f <;> decide

theorem has_iff (w : BitVec 32) (f : Feature) : Has w f ↔ w.getLsbD f.bit = true := by
  rw [Has, Feature.constant, BitVec.and_twoPow]
  split
  · next hbit =>
    refine iff_of_true (fun h0 => ?_) hbit
    have hself := congrArg (fun v => v.getLsbD f.bit) h0
    simp [f.bit_lt] at hself
  · next hbit => exact iff_of_false (not_not.mpr rfl) hbit

/-- One more constant. -/
theorem has_or (w : BitVec 32) (f g : Feature) :
    Has (w ||| g.constant) f ↔ Has w f ∨ g.bit = f.bit := by
  rw [has_iff, has_iff, BitVec.getLsbD_or, Feature.constant, BitVec.getLsbD_twoPow, Bool.or_eq_true]
  simp [g.bit_lt]

/-- After a sequence of tests. -/
theorem has_applyTests (r : Regs) (ts : List Test) (w : BitVec 32) (f : Feature) :
    Has (applyTests r ts w) f ↔
      Has w f ∨ ∃ t ∈ ts, t.feature.bit = f.bit ∧ t.Succeeds r := by
  induction ts generalizing w with
  | nil => simp [applyTests]
  | cons t ts ih =>
    rw [applyTests, List.foldl_cons, ← applyTests, ih, List.exists_mem_cons_iff, ← or_assoc]
    refine or_congr_left ?_
    by_cases hs : t.Succeeds r
    · rw [if_pos hs, has_or]
      simp [hs]
    · rw [if_neg hs]
      simp [hs]

/-- The feature a test is for. -/
theorem exists_test_iff (ts : List Test) (r : Regs) (f : Feature) :
    (∃ t ∈ ts, t.feature.bit = f.bit ∧ t.Succeeds r) ↔
      ∃ g, (∃ t ∈ ts, t.feature = g ∧ t.Succeeds r) ∧ g.bit = f.bit := by
  constructor
  · rintro ⟨t, ht, hbit, hs⟩
    exact ⟨t.feature, ⟨t, ht, rfl, hs⟩, hbit⟩
  · rintro ⟨g, ⟨t, ht, rfl, hs⟩, hbit⟩
    exact ⟨t, ht, hbit, hs⟩

/-- **The bit of a feature**: a feature with that constant is reported. -/
theorem mem_features_iff (cpuid : BitVec 32 → Regs) (f : Feature) :
    Has (halGetCpuFeatures cpuid) f ↔ ∃ g, Reports cpuid g ∧ g.bit = f.bit := by
  have hzero : ¬ Has 0 f := fun h => h BitVec.zero_and
  have hbasic : Has (applyTests (cpuid 1) basicTests 0) f ↔
      ∃ g, (∃ t ∈ basicTests, t.feature = g ∧ t.Succeeds (cpuid 1)) ∧ g.bit = f.bit := by
    rw [has_applyTests, or_iff_right hzero, exists_test_iff]
  simp only [halGetCpuFeatures, Reports, or_and_right, exists_or]
  split
  · next hext =>
    rw [has_applyTests, hbasic, exists_test_iff]
    simp only [hext, true_and]
  · next hext =>
    rw [hbasic]
    simp only [hext, false_and, exists_false, or_false]

/-- **The word decodes CPUID** for exactly those CPUs that report features with equal constants together
or not at all. -/
theorem features_decode_iff (cpuid : BitVec 32 → Regs) :
    (∀ f, Has (halGetCpuFeatures cpuid) f ↔ Reports cpuid f) ↔
      ∀ f g, f.bit = g.bit → (Reports cpuid f ↔ Reports cpuid g) := by
  constructor
  · intro h f g hbit
    rw [← h f, ← h g, has_iff, has_iff, hbit]
  · intro h f
    rw [mem_features_iff]
    constructor
    · rintro ⟨g, hg, hbit⟩
      exact (h g f hbit).mp hg
    · intro hf
      exact ⟨f, hf, rfl⟩

/-- A CPU with a floating-point unit and nothing else. -/
def fpuOnly : BitVec 32 → Regs := fun _ => ⟨0, 0, 0, 1⟩

/-- **It is said to have SSE3.** -/
theorem fpu_taken_for_sse3 :
    halGetCpuFeatures fpuOnly = 1 ∧ Has (halGetCpuFeatures fpuOnly) .sse3 ∧
      Reports fpuOnly .fpu ∧ ¬ Reports fpuOnly .sse3 := by
  refine ⟨by decide +kernel, ?_, Or.inl ⟨⟨.edx, 0, .fpu⟩, by decide, rfl, by decide⟩, ?_⟩
  · rw [Has]
    decide +kernel
  · rintro (⟨t, ht, hf, hs⟩ | ⟨hext, -⟩)
    · revert t
      decide +kernel
    · exact absurd hext (by decide)

end JarvOs.Core
