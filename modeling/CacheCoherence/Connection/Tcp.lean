import Mathlib

/-! # `tcp::write` and `tcp::read`

The loops of `util/socket/tcp.cpp`, round by round. What `send` and `recv` return is given: a negative number is an
error, and `recv` returns 0 once the peer has closed and the stream is used up.
-/
namespace CacheCoherence.Tcp

structure Locals where
  current : ℕ
  size : ℕ
deriving DecidableEq, Repr

inductive Outcome where
  | returned
  | thrown
deriving DecidableEq, Repr

inductive Round where
  | again (l : Locals)
  | exit (o : Outcome)
deriving DecidableEq, Repr

def Locals.advance (l : Locals) (res : ℕ) : Locals := ⟨l.current + res, l.size - res⟩

def writeRound (l : Locals) (res : ℤ) : Round :=
  if res < 0 then .exit .thrown else .again (l.advance res.toNat)

def readRound (l : Locals) (res : ℤ) : Round :=
  if res < 0 then .exit .thrown
  else if res.toNat = l.size then .exit .returned
  else .again (l.advance res.toNat)

/-- The loop of `read` from its head on, before call `k` of `recv`, cut off after `fuel` rounds. -/
def readLoop (recv : ℕ → ℤ) : ℕ → ℕ → Locals → Option Outcome
  | 0, _, l => if 0 < l.size then none else some .returned
  | fuel + 1, k, l =>
    if 0 < l.size then
      match readRound l (recv k) with
      | .again l' => readLoop recv fuel (k + 1) l'
      | .exit o => some o
    else some .returned

def read (recv : ℕ → ℤ) (size fuel : ℕ) : Option Outcome := readLoop recv fuel 0 ⟨0, size⟩

def arrived (recv : ℕ → ℤ) (k : ℕ) : ℕ := ∑ j ∈ Finset.range k, (recv j).toNat

/-- The results that `recv` can give while `size` bytes are read: no call delivers more than is missing, and after
the end of the stream nothing comes. -/
structure Results (size : ℕ) where
  recv : ℕ → ℤ
  fits : ∀ k, arrived recv k < size → arrived recv k + (recv k).toNat ≤ size
  closed : ∀ k, recv k = 0 → recv (k + 1) = 0

def Open (recv : ℕ → ℤ) (k : ℕ) : Prop := ∀ j < k, 0 < recv j

def Enough (recv : ℕ → ℤ) (size : ℕ) : Prop := ∃ k, Open recv k ∧ size ≤ arrived recv k

def EndsShort (recv : ℕ → ℤ) (size : ℕ) : Prop := ∃ k, Open recv k ∧ recv k = 0 ∧ arrived recv k < size

def FailsShort (recv : ℕ → ℤ) (size : ℕ) : Prop := ∃ k, Open recv k ∧ recv k < 0 ∧ arrived recv k < size

def Yields (recv : ℕ → ℤ) (size : ℕ) (o : Outcome) : Prop := ∃ fuel, read recv size fuel = some o

structure Settles (recv : ℕ → ℤ) (size : ℕ) : Prop where
  ends : ∃ o, Yields recv size o
  returns : Yields recv size .returned ↔ Enough recv size
  throws : ¬ Enough recv size → Yields recv size .thrown

variable {recv : ℕ → ℤ} {size fuel k : ℕ} {l : Locals} {o o' : Outcome}

theorem arrived_zero (recv : ℕ → ℤ) : arrived recv 0 = 0 := rfl

theorem arrived_succ (recv : ℕ → ℤ) (k : ℕ) : arrived recv (k + 1) = arrived recv k + (recv k).toNat :=
  Finset.sum_range_succ _ k

theorem le_arrived (h : Open recv k) : k ≤ arrived recv k := by
  induction k with
  | zero => exact Nat.zero_le _
  | succ k ih =>
    have hk := ih fun j hj => h j (by omega)
    have hlast := h k (by omega)
    rw [arrived_succ]
    omega

theorem enough_or_short (recv : ℕ → ℤ) (size : ℕ) : Enough recv size ∨ EndsShort recv size ∨ FailsShort recv size := by
  by_cases hopen : ∃ k, recv k ≤ 0
  · have hmin : Open recv (Nat.find hopen) := fun j hj => by
      have := Nat.find_min hopen hj
      omega
    by_cases henough : size ≤ arrived recv (Nat.find hopen)
    · exact Or.inl ⟨_, hmin, henough⟩
    · rcases (Nat.find_spec hopen).lt_or_eq with herror | hzero
      · exact Or.inr (Or.inr ⟨_, hmin, herror, by omega⟩)
      · exact Or.inr (Or.inl ⟨_, hmin, hzero, by omega⟩)
  · have hall : Open recv size := fun j _ => by
      by_contra hj
      exact hopen ⟨j, by omega⟩
    exact Or.inl ⟨size, hall, le_arrived hall⟩

theorem readLoop_mono (h : readLoop recv fuel k l = some o) (more : ℕ) : readLoop recv (fuel + more) k l = some o := by
  induction fuel generalizing k l with
  | zero =>
    have hzero : ¬ 0 < l.size := by
      intro hpos
      simp [readLoop, hpos] at h
    cases more <;> simpa [readLoop, hzero] using h
  | succ fuel ih =>
    rw [Nat.succ_add]
    rw [readLoop] at h ⊢
    split at h
    · rename_i hpos
      rw [if_pos hpos]
      cases hround : readRound l (recv k) with
      | exit o' => simpa [hround] using h
      | again l' =>
        rw [hround] at h
        exact ih h
    · rename_i hzero
      rw [if_neg hzero]
      exact h

theorem Yields.unique (h : Yields recv size o) (h' : Yields recv size o') : o = o' := by
  obtain ⟨fuel, h⟩ := h
  obtain ⟨fuel', h'⟩ := h'
  have hmore := readLoop_mono h fuel'
  rw [Nat.add_comm, readLoop_mono h' fuel] at hmore
  exact (Option.some.inj hmore).symm

def before (recv : ℕ → ℤ) (size k : ℕ) : Locals := ⟨arrived recv k, size - arrived recv k⟩

theorem readLoop_before (hfits : arrived recv k + (recv k).toNat ≤ size) (hmissing : arrived recv k < size) :
    readLoop recv (fuel + 1) k (before recv size k) =
      if recv k < 0 then some .thrown
      else if arrived recv (k + 1) = size then some .returned
      else readLoop recv fuel (k + 1) (before recv size (k + 1)) := by
  have hpos : 0 < (before recv size k).size := Nat.sub_pos_of_lt hmissing
  have hlast : (recv k).toNat = (before recv size k).size ↔ arrived recv (k + 1) = size := by
    have hsize : (before recv size k).size = size - arrived recv k := rfl
    rw [arrived_succ, hsize]
    omega
  have hadvance : (before recv size k).advance (recv k).toNat = before recv size (k + 1) := by
    simp only [before, Locals.advance, arrived_succ, Nat.sub_sub]
  rw [readLoop, if_pos hpos, readRound]
  by_cases herror : recv k < 0
  · rw [if_pos herror, if_pos herror]
  · rw [if_neg herror, if_neg herror]
    by_cases hdone : arrived recv (k + 1) = size
    · rw [if_pos hdone, if_pos (hlast.mpr hdone)]
    · rw [if_neg hdone, if_neg (mt hlast.mp hdone), hadvance]

theorem read_before (r : Results size) (hopen : Open r.recv k) (hmissing : arrived r.recv k < size) (fuel : ℕ) :
    read r.recv size (fuel + k) = readLoop r.recv fuel k (before r.recv size k) := by
  induction k generalizing fuel with
  | zero => rfl
  | succ k ih =>
    have hprefix : Open r.recv k := fun j hj => hopen j (by omega)
    have hlast := hopen k (by omega)
    have hk : arrived r.recv k < size := by
      rw [arrived_succ] at hmissing
      omega
    rw [← Nat.add_assoc, Nat.add_right_comm, ih hprefix hk, readLoop_before (r.fits k hk) hk, if_neg (by omega),
      if_neg hmissing.ne]

theorem yields_thrown (r : Results size) (h : FailsShort r.recv size) : Yields r.recv size .thrown := by
  obtain ⟨k, hopen, herror, hmissing⟩ := h
  refine ⟨1 + k, ?_⟩
  rw [read_before r hopen hmissing, readLoop_before (r.fits k hmissing) hmissing, if_pos herror]

theorem yields_returned (r : Results size) (h : Enough r.recv size) : Yields r.recv size .returned := by
  obtain ⟨k, hopen, henough⟩ := h
  induction k with
  | zero =>
    obtain rfl : size = 0 := by simpa [arrived_zero] using henough
    exact ⟨0, rfl⟩
  | succ k ih =>
    have hprefix : Open r.recv k := fun j hj => hopen j (by omega)
    by_cases hk : size ≤ arrived r.recv k
    · exact ih hprefix hk
    · have hmissing : arrived r.recv k < size := by omega
      have hfits := r.fits k hmissing
      have hlast := hopen k (by omega)
      have hdone : arrived r.recv (k + 1) = size := by
        rw [arrived_succ] at henough ⊢
        omega
      refine ⟨1 + k, ?_⟩
      rw [read_before r hprefix hmissing, readLoop_before hfits hmissing, if_neg (by omega), if_pos hdone]

/-- After the end of the stream every round leaves everything as it is. -/
theorem readLoop_closed (r : Results size) (hmissing : arrived r.recv k < size) (hzero : r.recv k = 0) (fuel : ℕ) :
    readLoop r.recv fuel k (before r.recv size k) = none := by
  induction fuel generalizing k with
  | zero =>
    have hpos : 0 < (before r.recv size k).size := Nat.sub_pos_of_lt hmissing
    simp [readLoop, hpos]
  | succ fuel ih =>
    have hsame : arrived r.recv (k + 1) = arrived r.recv k := by
      rw [arrived_succ, hzero]
      rfl
    rw [readLoop_before (r.fits k hmissing) hmissing, if_neg (by omega), if_neg (by omega)]
    exact ih (by omega) (r.closed k hzero)

/-- A `read` that meets the end of the stream does not end. -/
theorem not_yields (r : Results size) (h : EndsShort r.recv size) : ¬ Yields r.recv size o := by
  rintro ⟨fuel, hfuel⟩
  obtain ⟨k, hopen, hzero, hmissing⟩ := h
  have hmore : read r.recv size (fuel + k) = some o := readLoop_mono hfuel k
  rw [read_before r hopen hmissing, readLoop_closed r hmissing hzero] at hmore
  cases hmore

theorem not_enough_of_failsShort (r : Results size) (h : FailsShort r.recv size) : ¬ Enough r.recv size := by
  intro henough
  cases (yields_returned r henough).unique (yields_thrown r h)

/-- `read` behaves as long as the peer does not close before the bytes are there. -/
theorem settles_iff (size : ℕ) (r : Results size) : Settles r.recv size ↔ ¬ EndsShort r.recv size := by
  constructor
  · intro h hshort
    obtain ⟨o, ho⟩ := h.ends
    exact not_yields r hshort ho
  · intro hlong
    rcases enough_or_short r.recv size with henough | hshort | hfails
    · have hreturned := yields_returned r henough
      exact ⟨⟨_, hreturned⟩, iff_of_true hreturned henough, fun hnot => absurd henough hnot⟩
    · exact absurd hshort hlong
    · have hthrown := yields_thrown r hfails
      have hnot := not_enough_of_failsShort r hfails
      refine ⟨⟨_, hthrown⟩, iff_of_false (fun hreturned => ?_) hnot, fun _ => hthrown⟩
      cases hreturned.unique hthrown

def closedResults (size : ℕ) : Results size := ⟨fun _ => 0, fun _ h => by simpa using h.le, fun _ _ => rfl⟩

/-- A server that waits for the address of the next reply buffer, after the client has closed. -/
theorem read_of_closed : ¬ ∀ (size : ℕ) (r : Results size), Settles r.recv size := by
  intro h
  have hshort : EndsShort (closedResults 16).recv 16 := ⟨0, fun _ hj => absurd hj (Nat.not_lt_zero _), rfl, by decide⟩
  obtain ⟨o, ho⟩ := (h 16 (closedResults 16)).ends
  exact not_yields _ hshort ho

end CacheCoherence.Tcp
