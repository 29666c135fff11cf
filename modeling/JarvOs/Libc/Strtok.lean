/-
# `strtok` (`libc/string.c`)

`strtok` cuts a string up in place, one token a call: it overwrites the delimiter behind a token with a
zero and remembers, in a `static` variable, the place after it.  With the last token it forgets the
string, and from then on it returns NULL.

The string is a buffer of exactly its bytes and its terminator; reading or writing anywhere else is a
fault (`none`).  So a call that returns has stayed inside.  The delimiters are another string, which
`strtok` only reads.

`strtok_call` says what one call does in terms of the string that is left (`Ready`): it finds the next
piece of it, in the sense of `Lib.Pieces`.  `strtok_yields_tokens` follows any number of calls: they
return the pieces of the string in order and then NULL, and the tokens can still be read afterwards.
-/
import JarvOs.Lib.Pieces
import JarvOs.Lib.Trace
import JarvOs.Fs.Path

namespace JarvOs.Libc

open JarvOs.Lib
open JarvOs.Fs (CString)

/-! ## 1. The code -/

/-- `strchr`: how far from `s` the character is; `none` is NULL.  Behind the bytes there is a zero. -/
def strchr : List UInt8 → UInt8 → Option Nat
  | [], c => if c = 0 then some 0 else none
  | b :: s, c => if b = c then some 0 else (strchr s c).map (· + 1)

/-- The loops of `strspn` and `strcspn` over the memory from a pointer on: how far they go. -/
def spanLoop (test : UInt8 → Bool) : List UInt8 → Option Nat
  | [] => none
  | b :: mem => if b ≠ 0 ∧ test b then (spanLoop test mem).map (· + 1) else some 0

/-- `strspn` -/
def strspn (mem : List UInt8) (accept : CString) : Option Nat :=
  spanLoop (fun c => (strchr accept.bytes c).isSome) mem

/-- `strcspn` -/
def strcspn (mem : List UInt8) (reject : CString) : Option Nat :=
  spanLoop (fun c => !(strchr reject.bytes c).isSome) mem

/-- `strtok`, where `str` and `static_str` are NULL or positions in `buf`: the token, the buffer and
`static_str`. -/
def strtok (delim : CString) (buf : List UInt8) (staticStr str : Option Nat) :
    Option (Option Nat × List UInt8 × Option Nat) :=
  match (if str.isSome then str else staticStr) with
  | none => some (none, buf, none)
  | some p => do
    let skipped ← strspn (buf.drop p) delim
    let first ← buf[p + skipped]?
    if first = 0 then some (none, buf, none)
    else
      let token := p + skipped
      let length ← strcspn (buf.drop token) delim
      let last ← buf[token + length]?
      if last ≠ 0 then some (some token, buf.set (token + length) 0, some (token + length + 1))
      else some (some token, buf, none)

/-- A call, on the buffer and `static_str`. -/
def strtokStep (delim : CString) (s : List UInt8 × Option Nat) (str : Option Nat) :
    Option (Option Nat × (List UInt8 × Option Nat)) := strtok delim s.1 s.2 str

/-! ## 2. The scans -/

variable {d : CString} {s buf : List UInt8} {p : Nat}

/-- The delimiters. -/
def isDelim (d : CString) (c : UInt8) : Bool := decide (c ∈ d.bytes)

theorem strchr_isSome {c : UInt8} (hc : c ≠ 0) : ∀ l : List UInt8,
    (strchr l c).isSome = decide (c ∈ l)
  | [] => by simp [strchr, hc]
  | b :: l => by
    rw [strchr]
    by_cases hb : b = c
    · simp [hb]
    · simp [hb, Ne.symm hb, strchr_isSome hc l]

/-- A scan that stops in front of the terminator or at it. -/
theorem spanLoop_eq {test sep : UInt8 → Bool} (htest : ∀ c, c ≠ 0 → test c = sep c) {r : List UInt8}
    (hr : 0 ∉ r) : spanLoop test (r ++ [0]) = some (r.takeWhile sep).length := by
  induction r with
  | nil => rfl
  | cons b r ih =>
    have hb : b ≠ 0 := fun h0 => hr (h0 ▸ List.mem_cons_self)
    rw [List.cons_append, spanLoop, htest b hb, ih (fun h0 => hr (List.mem_cons_of_mem _ h0))]
    by_cases hsep : sep b
    · simp [hb, hsep]
    · simp [hsep]

theorem strspn_eq {r : List UInt8} (hr : 0 ∉ r) :
    strspn (r ++ [0]) d = some (r.takeWhile (isDelim d)).length :=
  spanLoop_eq (fun _ hc => strchr_isSome hc d.bytes) hr

theorem strcspn_eq {r : List UInt8} (hr : 0 ∉ r) :
    strcspn (r ++ [0]) d = some (r.takeWhile (fun c => !isDelim d c)).length :=
  spanLoop_eq (fun c hc => by rw [strchr_isSome hc d.bytes]; rfl) hr

/-! ## 3. One call -/

/-- What is left of `s` is still in the buffer, from `p` on, and `p` is a place where a piece may
start. -/
structure Ready (d : CString) (s buf : List UInt8) (p : Nat) : Prop where
  le : p ≤ s.length
  rest : buf.drop p = s.drop p ++ [0]
  left : ∀ j c, p = j + 1 → s[j]? = some c → isDelim d c = true

/-- Where the next token starts. -/
def tokenStart (d : CString) (s : List UInt8) (p : Nat) : Nat :=
  p + ((s.drop p).takeWhile (isDelim d)).length

/-- The next token. -/
def tokenAt (d : CString) (s : List UInt8) (a : Nat) : List UInt8 :=
  (s.drop a).takeWhile (fun c => !isDelim d c)

theorem drop_tokenStart (d : CString) (s : List UInt8) (p : Nat) :
    s.drop (tokenStart d s p) = (s.drop p).dropWhile (isDelim d) := by
  rw [tokenStart, ← List.drop_drop, drop_length_takeWhile]

theorem separators_tokenStart (d : CString) (s : List UInt8) (p : Nat) :
    Separators (isDelim d) s p (tokenStart d s p) := by
  intro x hlo hhi
  obtain ⟨k, rfl⟩ := Nat.exists_eq_add_of_le hlo
  rw [tokenStart] at hhi
  exact ⟨_, getElem?_of_stands (List.takeWhile_prefix _) (by omega),
    List.mem_takeWhile_imp (List.getElem_mem _)⟩

/-- The token is a piece of the string. -/
theorem piece_tokenAt (h : Ready d s buf p) (hne : s.drop (tokenStart d s p) ≠ []) :
    Piece (isDelim d) s (tokenStart d s p) (tokenAt d s (tokenStart d s p)) := by
  refine Piece.first h.left (Nat.le_add_right _ _) (separators_tokenStart d s p)
    (List.takeWhile_prefix _) ?_ (fun c hc => ?_) (fun c hc => ?_)
  · -- the scan for delimiters has stopped here
    rw [drop_tokenStart] at hne
    obtain ⟨c, rest, hcons⟩ := List.exists_cons_of_ne_nil hne
    have hstop := List.head?_dropWhile_not (isDelim d) (s.drop p)
    rw [hcons] at hstop
    rw [tokenAt, drop_tokenStart, hcons, List.takeWhile_cons_of_pos (by simpa using hstop)]
    exact List.cons_ne_nil _ _
  · simpa using List.mem_takeWhile_imp hc
  · have hstop := List.head?_dropWhile_not (fun c => !isDelim d c) (s.drop (tokenStart d s p))
    rw [← drop_length_takeWhile, List.head?_drop, List.getElem?_drop] at hstop
    rw [tokenAt] at hc
    rw [hc] at hstop
    simpa using hstop

/-- The buffer from a place on. -/
theorem Ready.drop (h : Ready d s buf p) {x : Nat} (hlo : p ≤ x) (hhi : x ≤ s.length) :
    buf.drop x = s.drop x ++ [0] := by
  obtain ⟨k, rfl⟩ := Nat.exists_eq_add_of_le hlo
  rw [← List.drop_drop, h.rest, List.drop_append_of_le_length (by rw [List.length_drop]; omega),
    List.drop_drop]

/-- A byte of the buffer: a character, or the terminator. -/
theorem Ready.read (hs : 0 ∉ s) (h : Ready d s buf p) {x : Nat} (hlo : p ≤ x) (hhi : x ≤ s.length) :
    ∃ c, buf[x]? = some c ∧ (c = 0 ↔ x = s.length) := by
  have hread : buf[x]? = (s.drop x ++ [0]).head? := by
    rw [← h.drop hlo hhi, List.head?_drop]
  rcases Nat.lt_or_ge x s.length with hlt | hge
  · refine ⟨s[x], ?_, iff_of_false (fun h0 => hs (h0 ▸ List.getElem_mem hlt)) (by omega)⟩
    rw [hread, List.drop_eq_getElem_cons hlt]
    rfl
  · refine ⟨0, ?_, iff_of_true rfl (by omega)⟩
    rw [hread, List.drop_eq_nil_of_le hge]
    rfl

theorem tokenStart_le (h : Ready d s buf p) : tokenStart d s p ≤ s.length := by
  have hle := (List.takeWhile_prefix (l := s.drop p) (isDelim d)).length_le
  have hp := h.le
  rw [List.length_drop] at hle
  rw [tokenStart]
  omega

theorem length_tokenAt_le (d : CString) (s : List UInt8) (a : Nat) :
    (tokenAt d s a).length ≤ s.length - a := by
  have hle := (List.takeWhile_prefix (l := s.drop a) (fun c => !isDelim d c)).length_le
  rwa [List.length_drop] at hle

/-- **One call**: NULL if only delimiters are left; otherwise the next token, which ends at `b`.  There
the string ends too, or it is cut off. -/
theorem strtok_call (hs : 0 ∉ s) (h : Ready d s buf p) {a b : Nat} (ha : a = tokenStart d s p)
    (hb : b = a + (tokenAt d s a).length) :
    strtok d buf (some p) none =
      if a = s.length then some (none, buf, none)
      else if b = s.length then some (some a, buf, none)
      else some (some a, buf.set b 0, some (b + 1)) := by
  have hnot : ∀ x, 0 ∉ s.drop x := fun x h0 => hs (List.mem_of_mem_drop h0)
  have hpa : p ≤ a := by
    rw [ha]
    exact Nat.le_add_right _ _
  have has : a ≤ s.length := ha ▸ tokenStart_le h
  have hbs : b ≤ s.length := by
    have := length_tokenAt_le d s a
    omega
  obtain ⟨first, hfirst, hfirst0⟩ := h.read hs hpa has
  obtain ⟨last, hlast, hlast0⟩ := h.read hs (show p ≤ b by omega) hbs
  have hspan : strspn (buf.drop p) d = some ((s.drop p).takeWhile (isDelim d)).length := by
    rw [h.rest, strspn_eq (hnot p)]
  have hcspan : strcspn (buf.drop a) d = some (tokenAt d s a).length := by
    rw [h.drop hpa has, strcspn_eq (hnot a)]
    rfl
  simp only [strtok, Option.isSome_none, Bool.false_eq_true, if_false, hspan, Option.bind_eq_bind,
    Option.bind_some]
  rw [← tokenStart, ← ha, hfirst, Option.bind_some, hcspan, Option.bind_some, ← hb, hlast,
    Option.bind_some, if_congr hfirst0 rfl rfl, if_congr (not_congr hlast0) rfl rfl, ite_not]

/-! ## 4. Any number of calls -/

/-- After the last token, NULL. -/
theorem answers_exhausted (d : CString) (buf : List UInt8) (n : Nat) :
    answers (strtokStep d) (buf, none) (List.replicate n none) =
      some (List.replicate n none, (buf, none)) := by
  induction n with
  | zero => rfl
  | succ n ih =>
    have hcall : strtokStep d (buf, none) none = some (none, (buf, none)) := rfl
    rw [List.replicate_succ, answers, hcall, Option.bind_some, ih]
    rfl

/-- `ts` are the pieces from `q` on, by position and text, in order. -/
structure PiecesFrom (d : CString) (s : List UInt8) (q : Nat) (ts : List (Nat × List UInt8)) :
    Prop where
  sorted : (ts.map Prod.fst).Pairwise (· < ·)
  mem_iff : ∀ i w, (i, w) ∈ ts ↔ Piece (isDelim d) s i w ∧ q ≤ i

/-- `n` more calls return `ts` and then NULL, leave the buffer in front of `q` as it is, and the tokens can
be read off it. -/
def Returns (d : CString) (buf : List UInt8) (staticStr : Option Nat) (q n : Nat)
    (ts : List (Nat × List UInt8)) : Prop :=
  ∃ buf' st', answers (strtokStep d) (buf, staticStr) (List.replicate n none) =
      some ((List.range n).map (fun k => (ts[k]?).map Prod.fst), (buf', st')) ∧
    buf'.take q = buf.take q ∧ ∀ t ∈ ts.take n, cstrAt buf' t.1 = t.2

theorem piecesFrom_nil {q : Nat} (hskip : Separators (isDelim d) s q s.length) :
    PiecesFrom d s q [] := by
  refine ⟨List.Pairwise.nil, fun i w => iff_of_false (by simp) ?_⟩
  rintro ⟨hpiece, hq⟩
  exact absurd (hpiece.lt_of_separators hskip) (by omega)

/-- The first piece in front of the others. -/
theorem PiecesFrom.cons {q a : Nat} {w : List UInt8} {ts : List (Nat × List UInt8)} (hqa : q ≤ a)
    (hskip : Separators (isDelim d) s q a) (hfirst : Piece (isDelim d) s a w)
    (h : PiecesFrom d s (a + w.length + 1) ts) : PiecesFrom d s q ((a, w) :: ts) := by
  refine ⟨?_, fun i v => ?_⟩
  · rw [List.map_cons, List.pairwise_cons]
    refine ⟨fun i hi => ?_, h.sorted⟩
    obtain ⟨⟨i, v⟩, ht, rfl⟩ := List.mem_map.mp hi
    have := ((h.mem_iff i v).mp ht).2
    simp only
    omega
  · rw [List.mem_cons, Prod.mk.injEq, h.mem_iff]
    constructor
    · rintro (⟨rfl, rfl⟩ | ⟨hpiece, hle⟩)
      · exact ⟨hfirst, hqa⟩
      · exact ⟨hpiece, by omega⟩
    · rintro ⟨hpiece, hq⟩
      rcases hpiece.next hq hskip hfirst with heq | hle
      · exact Or.inl heq
      · exact Or.inr ⟨hpiece, hle⟩

theorem returns_zero (d : CString) (buf : List UInt8) (st : Option Nat) (q : Nat)
    (ts : List (Nat × List UInt8)) : Returns d buf st q 0 ts :=
  ⟨buf, st, rfl, rfl, by simp⟩

theorem returns_exhausted (d : CString) (buf : List UInt8) (q n : Nat) : Returns d buf none q n [] := by
  refine ⟨buf, none, ?_, rfl, by simp⟩
  simp [answers_exhausted]

/-- A call that returns NULL, and the calls after it. -/
theorem returns_nil {q : Nat} (hcall : strtok d buf (some p) none = some (none, buf, none)) (n : Nat) :
    Returns d buf (some p) q n [] := by
  cases n with
  | zero => exact returns_zero d buf (some p) q []
  | succ n =>
    have hstep : strtokStep d (buf, some p) none = some (none, (buf, none)) := hcall
    refine ⟨buf, none, ?_, rfl, by simp⟩
    rw [List.replicate_succ, answers, hstep, Option.bind_some, answers_exhausted]
    simp [List.replicate_succ]

/-- A call that returns a token, and the calls after it. -/
theorem returns_cons {q q₁ a : Nat} {w : List UInt8} {st₁ : Option Nat} {buf₁ : List UInt8}
    {ts : List (Nat × List UInt8)} (hcall : strtok d buf (some p) none = some (some a, buf₁, st₁))
    (hrest : ∀ n, Returns d buf₁ st₁ q₁ n ts) (hq : q ≤ q₁) (hframe : buf₁.take q = buf.take q)
    (hw : cstrAt buf₁ a = w) (hend : a + w.length < q₁) (n : Nat) :
    Returns d buf (some p) q n ((a, w) :: ts) := by
  cases n with
  | zero => exact returns_zero d buf (some p) q _
  | succ n =>
    obtain ⟨buf', st', hanswers, hkeep, htokens⟩ := hrest n
    have hstep : strtokStep d (buf, some p) none = some (some a, (buf₁, st₁)) := hcall
    refine ⟨buf', st', ?_, ?_, fun t ht => ?_⟩
    · rw [List.replicate_succ, answers, hstep, Option.bind_some, hanswers, Option.map_some,
        List.range_succ_eq_map, List.map_cons, List.map_map]
      rfl
    · rw [← hframe, ← min_eq_left hq, ← List.take_take, hkeep, List.take_take]
    · rcases List.mem_cons.mp ht with rfl | ht
      · -- what is cut off later is behind the token
        exact (cstrAt_congr_take hkeep (hw ▸ hend)).trans hw
      · exact htokens t ht

/-- The string in the buffer from a place on. -/
theorem Ready.cstrAt (hs : 0 ∉ s) (h : Ready d s buf p) {x : Nat} (hlo : p ≤ x) (hhi : x ≤ s.length) :
    cstrAt buf x = s.drop x := by
  have hdrop := cstrAt_terminated (fun h0 => hs (List.mem_of_mem_drop h0) : 0 ∉ s.drop x) []
  rwa [Lib.cstrAt, List.drop_zero, ← h.drop hlo hhi] at hdrop

/-- Behind a token that was cut off. -/
theorem Ready.cut (h : Ready d s buf p) {b : Nat} (hpb : p ≤ b) (hb : b < s.length)
    (hdelim : ∀ c, s[b]? = some c → isDelim d c = true) : Ready d s (buf.set b 0) (b + 1) := by
  refine ⟨hb, ?_, fun j c hj hc => ?_⟩
  · rw [List.drop_set_of_lt (Nat.lt_succ_self b), h.drop (by omega) hb]
  · obtain rfl : b = j := by omega
    exact hdelim c hc

/-- **Any number of calls**, by induction on what is left of the string. -/
theorem strtok_returns (hs : 0 ∉ s) : ∀ (m : Nat) {buf : List UInt8} {p : Nat}, Ready d s buf p →
    s.length - p < m → ∃ ts, PiecesFrom d s p ts ∧ ∀ n, Returns d buf (some p) p n ts := by
  intro m
  induction m with
  | zero => exact fun _ hm => absurd hm (Nat.not_lt_zero _)
  | succ m ih =>
    intro buf p h hm
    obtain ⟨a, ha⟩ : ∃ a, a = tokenStart d s p := ⟨_, rfl⟩
    obtain ⟨b, hb⟩ : ∃ b, b = a + (tokenAt d s a).length := ⟨_, rfl⟩
    have hcall := strtok_call hs h ha hb
    have hpa : p ≤ a := ha ▸ Nat.le_add_right _ _
    have has : a ≤ s.length := ha ▸ tokenStart_le h
    have hbs : b ≤ s.length := by
      have := length_tokenAt_le d s a
      omega
    have hskip : Separators (isDelim d) s p a := ha ▸ separators_tokenStart d s p
    by_cases hend : a = s.length
    · -- only delimiters are left
      rw [if_pos hend] at hcall
      exact ⟨[], piecesFrom_nil (hend ▸ hskip), returns_nil hcall⟩
    · rw [if_neg hend] at hcall
      have hpiece : Piece (isDelim d) s a (tokenAt d s a) := by
        rw [ha]
        refine piece_tokenAt h ?_
        rw [← ha, Ne, List.drop_eq_nil_iff]
        omega
      have hword : s.drop a = tokenAt d s a ++ s.drop b := by
        obtain ⟨rest, hrest⟩ := hpiece.stands
        rw [hb, ← List.drop_drop, ← hrest, List.drop_left]
      by_cases hlast : b = s.length
      · -- the last token ends the string
        rw [if_pos hlast] at hcall
        have htoken : Lib.cstrAt buf a = tokenAt d s a := by
          rw [h.cstrAt hs hpa has, hword, hlast, List.drop_length, List.append_nil]
        exact ⟨[(a, tokenAt d s a)], PiecesFrom.cons hpa hskip hpiece
          (piecesFrom_nil (fun x hlo hhi => by omega)),
          returns_cons hcall (returns_exhausted d buf (b + 1)) (by omega) rfl htoken (by omega)⟩
      · rw [if_neg hlast] at hcall
        have hready : Ready d s (buf.set b 0) (b + 1) :=
          h.cut (by omega) (by omega) (fun c hc => hpiece.right c (hb ▸ hc))
        obtain ⟨ts, hpieces, hreturns⟩ := ih hready (by omega)
        have htoken : Lib.cstrAt (buf.set b 0) a = tokenAt d s a := by
          rw [hb, cstrAt_set (by rw [h.cstrAt hs hpa has, List.length_drop]; omega),
            h.cstrAt hs hpa has, hword, List.take_left]
        exact ⟨(a, tokenAt d s a) :: ts, PiecesFrom.cons hpa hskip hpiece (hb ▸ hpieces),
          returns_cons hcall hreturns (by omega) (List.take_set_of_le (by omega)) htoken (by omega)⟩

/-- **`strtok` yields exactly the tokens.**  For every string and every delimiters, whatever `strtok` was
used for before: there are the pieces of the string, in order, such that `strtok(s, d)` and any number
of calls `strtok(NULL, d)` after it return, give the pieces one after the other and then NULL, and leave
each piece as a terminated string at the place that was returned. -/
theorem strtok_yields_tokens (s d : CString) (staticStr : Option Nat) :
    ∃ ts : List (Nat × List UInt8), (ts.map Prod.fst).Pairwise (· < ·) ∧
      (∀ i w, (i, w) ∈ ts ↔ Piece (isDelim d) s.bytes i w) ∧
      ∀ n, ∃ buf st,
        answers (strtokStep d) (s.bytes ++ [0], staticStr) (some 0 :: List.replicate n none) =
          some ((List.range (n + 1)).map (fun k => (ts[k]?).map Prod.fst), (buf, st)) ∧
        ∀ t ∈ ts.take (n + 1), cstrAt buf t.1 = t.2 := by
  have hready : Ready d s.bytes (s.bytes ++ [0]) 0 :=
    ⟨Nat.zero_le _, rfl, fun j c hj _ => absurd hj (Nat.succ_ne_zero j).symm⟩
  obtain ⟨ts, hpieces, hreturns⟩ := strtok_returns s.noNul _ hready (Nat.lt_succ_self _)
  refine ⟨ts, hpieces.sorted, fun i w => ?_, fun n => ?_⟩
  · rw [hpieces.mem_iff]
    exact and_iff_left (Nat.zero_le i)
  · obtain ⟨buf, st, hanswers, -, htokens⟩ := hreturns (n + 1)
    exact ⟨buf, st, hanswers, htokens⟩

end JarvOs.Libc
