/-
# Loading the kernel (`read_loop` in `boot/boot2.asm`)

Stage 2 of the boot loader reads `KERNEL_SECTORS` sectors with INT 13h, one request per track: from the
current sector to the end of the track or as many as are left, then on to the next head.  The count of
sectors left is a 16-bit word.  But `cmp al, [sectors_left]` has an 8-bit operand, so it compares with
the LOW BYTE of that word; and `jle` takes both for signed.

INT 13h is taken to read the requested sectors of a disk with 18 sectors a track and 2 heads to ES:BX and
to report no error.  What the loop prints with INT 10h is left out.

* Up to 127 sectors the low byte is the count and is not negative.  Each round reads what it should
  (`Before.step`), and the kernel is loaded.
* From 128 sectors on, the loop either asks for 128 or more sectors at once, or comes to a low byte of 0,
  asks for 0 sectors and goes on doing so for ever (`crosses_track`).
-/
import Mathlib

namespace JarvOs.Boot

/-! ## 1. The code -/

/-- The variables of the loop, and BX.  (ES is 0x1000 throughout.) -/
structure Loader where
  curHead : BitVec 8
  curCyl : BitVec 8
  curSect : BitVec 8
  thisRead : BitVec 8
  sectorsLeft : BitVec 16
  bx : BitVec 16
deriving DecidableEq, Repr

/-- A request to INT 13h with AH = 2. -/
structure Request where
  al : BitVec 8
  ch : BitVec 8
  cl : BitVec 8
  dh : BitVec 8
  bx : BitVec 16
deriving DecidableEq, Repr

/-- The state in front of `read_loop`. -/
def start (kernelSectors : BitVec 16) : Loader :=
  { curHead := 0#8, curCyl := 0#8, curSect := 10#8, thisRead := 0#8, sectorsLeft := kernelSectors,
    bx := 0#16 }

/-- `AL` at `.use_track_max`: the sectors to read now. -/
def useTrackMax (curSect : BitVec 8) (sectorsLeft : BitVec 16) : BitVec 8 :=
  let al := 18#8 - curSect + 1#8
  -- `cmp al, [sectors_left]` and `jle`
  if al.sle (sectorsLeft.setWidth 8) then al else sectorsLeft.setWidth 8

/-- The body of the loop: the request, and the variables behind it. -/
def readStep (s : Loader) : Request × Loader :=
  let al := useTrackMax s.curSect s.sectorsLeft
  let request := ⟨al, s.curCyl, s.curSect, s.curHead, s.bx⟩
  let head := s.curHead + 1#8
  let next := { s with
    thisRead := al
    bx := s.bx + al.setWidth 16 * 512#16
    sectorsLeft := s.sectorsLeft - al.setWidth 16
    curSect := 1#8 }
  -- `cmp al, 2` and `jl .head_ok`
  if head.slt 2#8 then (request, { next with curHead := head })
  else (request, { next with curHead := 0#8, curCyl := s.curCyl + 1#8 })

/-- The loop, for at most so many rounds: the requests, in order. -/
def readLoop : Nat → Loader → Option (List Request)
  | 0, _ => none
  | fuel + 1, s =>
    if s.sectorsLeft = 0#16 then some []
    else (readLoop fuel (readStep s).2).map ((readStep s).1 :: ·)

/-! ## 2. What is to be read -/

/-- The sectors a request reads are on one track. -/
def Request.WithinTrack (r : Request) : Prop := 1 ≤ r.cl.toNat ∧ r.cl.toNat + r.al.toNat ≤ 19

/-- The number of the first sector. -/
def Request.lba (r : Request) : Nat := (r.ch.toNat * 2 + r.dh.toNat) * 18 + r.cl.toNat - 1

/-- The sectors a request reads, and the physical addresses they go to. -/
def Request.transfers (r : Request) : List (Nat × Nat) :=
  (List.range r.al.toNat).map (fun j => (r.lba + j, 0x10000 + r.bx.toNat + 512 * j))

/-- Sector `i` of the kernel and where it belongs. -/
def kernelSector (i : Nat) : Nat × Nat := (9 + i, 0x10000 + 512 * i)

/-- **The whole kernel is read**: the loop ends, no request leaves its track, and together they read the
sectors of the kernel once each, in order, to where they belong. -/
def ReadsKernel (kernelSectors : BitVec 16) : Prop :=
  ∃ fuel requests, readLoop fuel (start kernelSectors) = some requests ∧
    (∀ r ∈ requests, r.WithinTrack) ∧
    requests.flatMap Request.transfers = (List.range kernelSectors.toNat).map kernelSector

/-! ## 3. One round -/

/-- What is left of a track: 1 to 18 sectors. -/
theorem toNat_trackRest {c : BitVec 8} (hlo : 1 ≤ c.toNat) (hhi : c.toNat ≤ 18) :
    (18#8 - c + 1#8).toNat = 19 - c.toNat := by
  bv_omega

/-- **The sectors to read now.**  A low byte from 128 on is negative, so it is less than what is left of
the track; it is then taken as it is. -/
theorem toNat_useTrackMax {c : BitVec 8} (left : BitVec 16) (hlo : 1 ≤ c.toNat) (hhi : c.toNat ≤ 18) :
    (useTrackMax c left).toNat =
      if left.toNat % 256 < 128 then min (19 - c.toNat) (left.toNat % 256) else left.toNat % 256 := by
  have hrest := toNat_trackRest hlo hhi
  have hlow : (left.setWidth 8).toNat = left.toNat % 256 := BitVec.toNat_setWidth 8 left
  have hsle : (18#8 - c + 1#8).sle (left.setWidth 8) = true ↔
      left.toNat % 256 < 128 ∧ 19 - c.toNat ≤ left.toNat % 256 := by
    rw [BitVec.sle_eq_decide, decide_eq_true_iff, BitVec.toInt_eq_toNat_cond,
      BitVec.toInt_eq_toNat_cond, hrest, hlow]
    split_ifs <;> omega
  simp only [useTrackMax]
  rw [apply_ite BitVec.toNat, hrest, hlow, if_congr hsle rfl rfl]
  split_ifs with h1 h2 h2
  · exact (min_eq_left h1.2).symm
  · exact absurd h1.1 h2
  · exact (min_eq_right (by omega)).symm
  · rfl

/-- The variables behind a round. -/
theorem readStep_next (s : Loader) :
    (readStep s).1 = ⟨useTrackMax s.curSect s.sectorsLeft, s.curCyl, s.curSect, s.curHead, s.bx⟩ ∧
    (readStep s).2.curSect.toNat = 1 ∧
    (readStep s).2.sectorsLeft =
      s.sectorsLeft - (useTrackMax s.curSect s.sectorsLeft).setWidth 16 ∧
    (readStep s).2.bx = s.bx + (useTrackMax s.curSect s.sectorsLeft).setWidth 16 * 512#16 := by
  simp only [readStep]
  split_ifs
  · exact ⟨rfl, rfl, rfl, rfl⟩
  · exact ⟨rfl, rfl, rfl, rfl⟩

/-- The next track. -/
theorem readStep_track {s : Loader} (hhead : s.curHead.toNat < 2) (hcyl : s.curCyl.toNat < 255) :
    (readStep s).2.curHead.toNat < 2 ∧
      (readStep s).2.curCyl.toNat * 2 + (readStep s).2.curHead.toNat =
        s.curCyl.toNat * 2 + s.curHead.toNat + 1 := by
  have hslt : (s.curHead + 1#8).slt 2#8 = true ↔ s.curHead.toNat = 0 := by
    rw [BitVec.slt_eq_decide, decide_eq_true_iff, BitVec.toInt_eq_toNat_cond,
      BitVec.toInt_eq_toNat_cond, BitVec.toNat_add]
    simp only [BitVec.toNat_ofNat]
    omega
  simp only [readStep]
  split_ifs with h
  · rw [hslt] at h
    bv_omega
  · rw [hslt] at h
    bv_omega

/-! ## 4. Up to 127 sectors -/

/-- In front of a round, when `k` of the `n` sectors have been read: unless that were all, the disk is at
sector `9 + k`, which is the first of a track or the tenth. -/
structure Before (n k : Nat) (s : Loader) : Prop where
  le : k ≤ n
  left : s.sectorsLeft.toNat = n - k
  bx : s.bx.toNat = 512 * k
  head : k < n → s.curHead.toNat < 2
  sect : k < n → s.curSect.toNat = 1 ∨ s.curSect.toNat = 10
  lba : k < n → (s.curCyl.toNat * 2 + s.curHead.toNat) * 18 + s.curSect.toNat = 10 + k

theorem before_start (n : BitVec 16) : Before n.toNat 0 (start n) where
  le := Nat.zero_le _
  left := rfl
  bx := rfl
  head _ := Nat.zero_lt_two
  sect _ := Or.inr rfl
  lba _ := rfl

/-- **One round** reads the next sectors, to the end of the track or of the kernel. -/
theorem Before.step {n k : Nat} {s : Loader} (h : Before n k s) (hn : n ≤ 127) (hk : k < n) :
    (readStep s).1.WithinTrack ∧ ∃ c, 0 < c ∧ Before n (k + c) (readStep s).2 ∧
      (readStep s).1.transfers = (List.range' k c).map kernelSector := by
  have hleft := h.left
  have hbx := h.bx
  have hlba := h.lba hk
  have hhead := h.head hk
  have hsect : 1 ≤ s.curSect.toNat ∧ s.curSect.toNat ≤ 18 := by
    have := h.sect hk
    omega
  obtain ⟨hreq, hnext, hleft', hbx'⟩ := readStep_next s
  obtain ⟨hhead', htrack⟩ := readStep_track hhead (by omega)
  -- the low byte is the count
  have hal := toNat_useTrackMax s.sectorsLeft hsect.1 hsect.2
  rw [if_pos (by omega), Nat.mod_eq_of_lt (by omega), hleft] at hal
  generalize useTrackMax s.curSect s.sectorsLeft = al at hreq hleft' hbx' hal
  have hwide : (al.setWidth 16).toNat = al.toNat := BitVec.toNat_setWidth_of_le (by decide)
  have hcount : al.toNat ≤ n - k := by
    rw [hal]
    exact min_le_right _ _
  have hrest : al.toNat ≤ 19 - s.curSect.toNat := by
    rw [hal]
    exact min_le_left _ _
  have hpos : 0 < al.toNat := by
    rw [hal]
    exact lt_min (by omega) (by omega)
  refine ⟨?_, al.toNat, hpos, ?_, ?_⟩
  · rw [hreq]
    exact ⟨hsect.1, by simp only; omega⟩
  · refine ⟨by omega, ?_, ?_, fun _ => hhead', fun _ => Or.inl hnext, fun hlt => ?_⟩
    · rw [hleft', BitVec.toNat_sub, hwide]
      omega
    · rw [hbx', BitVec.toNat_add, BitVec.toNat_mul, hwide]
      simp only [BitVec.toNat_ofNat]
      omega
    · -- if sectors are left, the track was read to its end
      have hfull : al.toNat = 19 - s.curSect.toNat := by
        rw [hal]
        refine min_eq_left ?_
        by_contra hgt
        rw [min_eq_right (by omega)] at hal
        omega
      rw [hnext, htrack]
      omega
  · rw [List.range'_eq_map_range, List.map_map, hreq]
    refine List.map_congr_left (fun j hj => ?_)
    simp only [Request.lba, kernelSector, Function.comp_apply, Prod.mk.injEq]
    omega

/-- **The loop** from there on. -/
theorem Before.readLoop {n : Nat} (hn : n ≤ 127) : ∀ (fuel k : Nat) (s : Loader), Before n k s →
    n - k < fuel → ∃ requests, Boot.readLoop fuel s = some requests ∧
      (∀ r ∈ requests, r.WithinTrack) ∧
      requests.flatMap Request.transfers = (List.range' k (n - k)).map kernelSector := by
  intro fuel
  induction fuel with
  | zero =>
    intro k s _ hfuel
    exact absurd hfuel (Nat.not_lt_zero _)
  | succ fuel ih =>
    intro k s h hfuel
    have hleft := h.left
    rcases Nat.lt_or_ge k n with hk | hk
    · obtain ⟨hwithin, c, hc, hnext, htransfers⟩ := h.step hn hk
      have hle := hnext.le
      obtain ⟨requests, hrun, hall, hflat⟩ := ih (k + c) _ hnext (by omega)
      refine ⟨(readStep s).1 :: requests, ?_, ?_, ?_⟩
      · have hne : s.sectorsLeft ≠ 0#16 := by bv_omega
        rw [Boot.readLoop, if_neg hne, hrun, Option.map_some]
      · intro r hr
        rcases List.mem_cons.mp hr with rfl | hr
        · exact hwithin
        · exact hall r hr
      · rw [List.flatMap_cons, htransfers, hflat, ← List.map_append,
          show n - k = c + (n - (k + c)) by omega, ← List.range'_append_1]
    · have h0 : s.sectorsLeft = 0#16 := by bv_omega
      refine ⟨[], by rw [Boot.readLoop, if_pos h0], by simp, ?_⟩
      rw [show n - k = 0 by omega]
      rfl

/-! ## 5. From 128 sectors on -/

/-- A low byte of 0: nothing is read, and nothing changes. -/
theorem readLoop_stuck {fuel : Nat} : ∀ {s : Loader}, 1 ≤ s.curSect.toNat → s.curSect.toNat ≤ 18 →
    s.sectorsLeft.toNat % 256 = 0 → s.sectorsLeft ≠ 0#16 → readLoop fuel s = none := by
  induction fuel with
  | zero => exact fun _ _ _ _ => rfl
  | succ fuel ih =>
    intro s hlo hhi hlow hne
    obtain ⟨-, hnext, hleft, -⟩ := readStep_next s
    have hal := toNat_useTrackMax s.sectorsLeft hlo hhi
    rw [if_pos (by omega), hlow, Nat.min_zero] at hal
    have hzero : useTrackMax s.curSect s.sectorsLeft = 0#8 := BitVec.eq_of_toNat_eq hal
    have hsame : (readStep s).2.sectorsLeft = s.sectorsLeft := by
      rw [hleft, hzero]
      exact BitVec.sub_zero _
    rw [readLoop, if_neg hne, ih hnext.ge (by omega) (by rw [hsame, hlow]) (by rwa [hsame])]
    rfl

/-- **A loop that has 128 sectors or more to read and ends** has made a request that leaves its track. -/
theorem crosses_track {fuel : Nat} : ∀ {s : Loader} {requests : List Request},
    1 ≤ s.curSect.toNat → s.curSect.toNat ≤ 18 → 128 ≤ s.sectorsLeft.toNat →
    readLoop fuel s = some requests → ∃ r ∈ requests, ¬ r.WithinTrack := by
  induction fuel with
  | zero => exact fun _ _ _ h => absurd h (by simp [readLoop])
  | succ fuel ih =>
    intro s requests hlo hhi hleft hrun
    have hne : s.sectorsLeft ≠ 0#16 := by bv_omega
    rw [readLoop, if_neg hne] at hrun
    obtain ⟨rest, hrest, rfl⟩ := Option.map_eq_some_iff.mp hrun
    obtain ⟨hreq, hnext, hleft', -⟩ := readStep_next s
    have hal := toNat_useTrackMax s.sectorsLeft hlo hhi
    have hlt := s.sectorsLeft.isLt
    generalize useTrackMax s.curSect s.sectorsLeft = al at hreq hleft' hal
    have hwide : (al.setWidth 16).toNat = al.toNat := BitVec.toNat_setWidth_of_le (by decide)
    have hle : al.toNat ≤ s.sectorsLeft.toNat % 256 := by
      rw [hal]
      split
      · exact min_le_right _ _
      · exact le_refl _
    have hfewer : (readStep s).2.sectorsLeft.toNat = s.sectorsLeft.toNat - al.toNat := by
      rw [hleft', BitVec.toNat_sub, hwide]
      omega
    rcases Nat.lt_or_ge (s.sectorsLeft.toNat % 256) 128 with hlow | hlow
    · rw [if_pos hlow] at hal
      rcases Nat.lt_or_ge (s.sectorsLeft.toNat % 256) (19 - s.curSect.toNat) with hshort | hfull
      · -- the low byte is used up, and the loop is stuck
        rw [min_eq_right (by omega)] at hal
        have hstuck : readLoop fuel (readStep s).2 = none :=
          readLoop_stuck hnext.ge (by omega) (by omega) (by bv_omega)
        rw [hstuck] at hrest
        exact absurd hrest (by simp)
      · rw [min_eq_left hfull] at hal
        obtain ⟨r, hr, hcross⟩ := ih hnext.ge (by omega) (by omega) hrest
        exact ⟨r, List.mem_cons_of_mem _ hr, hcross⟩
    · rw [if_neg (by omega)] at hal
      refine ⟨_, List.mem_cons_self, fun hwithin => ?_⟩
      have hle := hwithin.2
      rw [hreq] at hle
      simp only at hle
      omega

/-! ## 6. Which kernels are loaded -/

/-- **The loader reads the whole kernel if and only if it has at most 127 sectors.** -/
theorem reads_kernel_iff (kernelSectors : BitVec 16) :
    ReadsKernel kernelSectors ↔ kernelSectors.toNat ≤ 127 := by
  constructor
  · rintro ⟨fuel, requests, hrun, hwithin, -⟩
    by_contra hbig
    have hsect : (start kernelSectors).curSect.toNat = 10 := rfl
    have hleft : (start kernelSectors).sectorsLeft = kernelSectors := rfl
    obtain ⟨r, hr, hcross⟩ := crosses_track (by rw [hsect]; decide) (by rw [hsect]; decide)
      (by rw [hleft]; omega) hrun
    exact hcross (hwithin r hr)
  · intro hn
    obtain ⟨requests, hrun, hwithin, hflat⟩ := (before_start kernelSectors).readLoop hn
      (kernelSectors.toNat + 1) 0 (start kernelSectors) (by omega)
    refine ⟨_, requests, hrun, hwithin, ?_⟩
    rw [hflat, Nat.sub_zero, ← List.range_eq_range']

/-- **One sector too many**: for 128 sectors the first request is for all of them, from sector 10 of a
track of 18.  For 256 sectors the loop never ends. -/
theorem oversized_request :
    (readStep (start 128#16)).1 = ⟨128#8, 0#8, 10#8, 0#8, 0#16⟩ ∧ ¬ ReadsKernel 128#16 ∧
      ∀ fuel, readLoop fuel (start 256#16) = none := by
  refine ⟨by decide, ?_, fun fuel => readLoop_stuck (by decide) (by decide) (by decide) (by decide)⟩
  rintro ⟨fuel, requests, hrun, hwithin, -⟩
  obtain ⟨r, hr, hcross⟩ := crosses_track (by decide) (by decide) (by decide) hrun
  exact hcross (hwithin r hr)

end JarvOs.Boot
