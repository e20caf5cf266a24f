import Mathlib

/-! # Values as bytes in memory

A layout says which bytes a value is, and which value a pointer to the type reads from memory: the one is determined
by the other. Layouts of structs are put together from those of their fields.
-/
namespace CacheCoherence.Layouts

abbrev Memory := ℕ → UInt8

def store (m : Memory) (a : ℕ) (bs : List UInt8) (i : ℕ) : UInt8 :=
  if a ≤ i then bs[i - a]?.getD (m i) else m i

def Starts (m : Memory) (bs : List UInt8) : Prop := ∀ i b, bs[i]? = some b → m i = b

/-- The memory as a pointer to its address `a` sees it. -/
def shift (a : ℕ) (m : Memory) : Memory := fun i => m (a + i)

variable {m : Memory} {a : ℕ} {xs ys bs : List UInt8}

theorem shift_zero (m : Memory) : shift 0 m = m := by
  funext i
  rw [shift, Nat.zero_add]

theorem store_nil (m : Memory) (a : ℕ) : store m a [] = m := by
  funext i
  simp [store]

theorem store_append (m : Memory) (a : ℕ) (xs ys : List UInt8) :
    store (store m a xs) (a + xs.length) ys = store m a (xs ++ ys) := by
  funext i
  unfold store
  by_cases hlow : a ≤ i
  · by_cases hhigh : a + xs.length ≤ i
    · have hlen : xs.length ≤ i - a := by omega
      rw [if_pos hhigh, if_pos hlow, if_pos hlow, List.getElem?_append_right hlen, List.getElem?_eq_none hlen,
        Nat.sub_sub]
      rfl
    · have hlen : i - a < xs.length := by omega
      rw [if_neg hhigh, if_pos hlow, if_pos hlow, List.getElem?_append_left hlen]
  · have hhigh : ¬ a + xs.length ≤ i := by omega
    rw [if_neg hhigh, if_neg hlow, if_neg hlow]

theorem starts_nil (m : Memory) : Starts m [] := by
  intro i b h
  simp at h

theorem starts_cons {x : UInt8} : Starts m (x :: xs) ↔ m 0 = x ∧ Starts (shift 1 m) xs := by
  constructor
  · intro h
    refine ⟨h 0 x rfl, fun i b hb => ?_⟩
    have := h (i + 1) b (by simpa using hb)
    rwa [shift, Nat.add_comm]
  · rintro ⟨h0, h⟩ i b hb
    cases i with
    | zero => rwa [← Option.some.inj hb]
    | succ i =>
      have := h i b (by simpa using hb)
      rwa [shift, Nat.add_comm] at this

theorem starts_append : Starts m (xs ++ ys) ↔ Starts m xs ∧ Starts (shift xs.length m) ys := by
  induction xs generalizing m with
  | nil => simp [starts_nil, shift_zero]
  | cons x xs ih =>
    have hshift : shift xs.length (shift 1 m) = shift (x :: xs).length m := by
      funext i
      simp only [shift, List.length_cons]
      congr 1
      omega
    rw [List.cons_append, starts_cons, starts_cons, ih, hshift, and_assoc]

theorem starts_store_iff : (∀ m, Starts (store m 0 bs) xs) ↔ xs <+: bs := by
  constructor
  · intro h
    rw [List.prefix_iff_getElem?]
    intro i hi
    have hread : ∀ m, store m 0 bs i = xs[i] := fun m => h m i _ (List.getElem?_eq_getElem hi)
    cases hb : bs[i]? with
    | some b =>
      have := hread fun _ => 0
      simpa [store, hb] using this
    | none =>
      -- the byte is the one that was there before, which can be any
      have hzero := hread fun _ => 0
      have hone := hread fun _ => 1
      simp only [store, Nat.zero_le, if_true, Nat.sub_zero, hb, Option.getD_none] at hzero hone
      rw [← hone] at hzero
      cases hzero
  · rintro ⟨zs, rfl⟩ m i b hb
    have hlt : i < xs.length := (List.getElem?_eq_some_iff.mp hb).1
    simp [store, List.getElem?_append_left hlt, hb]

theorem map_range_of_le (d : ℕ → UInt8) {n : ℕ} (h : n ≤ xs.length) :
    (List.range n).map (fun i => xs[i]?.getD (d i)) = xs.take n := by
  refine List.ext_getElem ?_ fun i hi hi' => ?_
  · rw [List.length_map, List.length_range, List.length_take]
    omega
  · have hlt : i < xs.length := by
      simp at hi
      omega
    simp [hlt]

theorem prefix_map_range_iff (d : ℕ → UInt8) {n : ℕ} :
    xs <+: (List.range n).map (fun i => xs[i]?.getD (d i)) ↔ xs.length ≤ n := by
  constructor
  · intro h
    simpa using h.length_le
  · intro h
    rw [List.prefix_iff_getElem?]
    intro i hi
    simp [List.getElem?_range (show i < n by omega), hi]

/-- The representation of the values of a type in `size` bytes; other patterns may be no value at all. -/
structure Layout (α : Type) where
  size : ℕ
  encode : α → List UInt8
  decode : Memory → Option α
  length_encode : ∀ v, (encode v).length = size
  decode_eq_some : ∀ m v, decode m = some v ↔ Starts m (encode v)

namespace Layout
variable {α β : Type}

/-- What is sent is read into any buffer exactly if the whole value is sent. -/
theorem decode_store_iff (l : Layout α) (v : α) : (∀ m, l.decode (store m 0 bs) = some v) ↔ l.encode v <+: bs := by
  simp only [l.decode_eq_some, starts_store_iff]

theorem decode_store (l : Layout α) {v : α} (h : l.encode v <+: bs) (m : Memory) : l.decode (store m 0 bs) = some v :=
  (l.decode_store_iff v).mpr h m

def pair (l : Layout α) (k : Layout β) : Layout (α × β) where
  size := l.size + k.size
  encode v := l.encode v.1 ++ k.encode v.2
  decode m := do
    let x ← l.decode m
    let y ← k.decode (shift l.size m)
    some (x, y)
  length_encode v := by rw [List.length_append, l.length_encode, k.length_encode]
  decode_eq_some m v := by
    rw [starts_append, l.length_encode, ← l.decode_eq_some, ← k.decode_eq_some]
    cases l.decode m <;> cases k.decode (shift l.size m) <;> simp [Prod.ext_iff]

def map (l : Layout α) (f : α → Option β) (g : β → α) (hfg : ∀ x v, f x = some v ↔ x = g v) : Layout β where
  size := l.size
  encode v := l.encode (g v)
  decode m := (l.decode m).bind f
  length_encode v := l.length_encode (g v)
  decode_eq_some m v := by
    rw [Option.bind_eq_some_iff, ← l.decode_eq_some]
    simp [hfg]

def enumeration [DecidableEq α] (l : Layout α) (values : List β) (code : β → α) (hall : ∀ v, v ∈ values)
    (hcode : Function.Injective code) : Layout β :=
  l.map (fun x => values.find? fun v => code v = x) code fun x v => by
    constructor
    · intro h
      have hcode : code v = x := by simpa using List.find?_some h
      exact hcode.symm
    · rintro rfl
      have hfound : (values.find? fun w => code w = code v).isSome := List.find?_isSome.mpr ⟨v, hall v, by simp⟩
      obtain ⟨w, hw⟩ := Option.isSome_iff_exists.mp hfound
      have hsame : code w = code v := by simpa using List.find?_some hw
      rwa [hcode hsame] at hw

end Layout

/-- The lowest bytes of a number, the least significant first. -/
def littleEndian : ℕ → ℕ → List UInt8
  | 0, _ => []
  | n + 1, w => UInt8.ofNat w :: littleEndian n (w / 256)

theorem length_littleEndian (n w : ℕ) : (littleEndian n w).length = n := by
  induction n generalizing w with
  | zero => rfl
  | succ n ih => simp [littleEndian, ih]

def number : ℕ → Memory → ℕ
  | 0, _ => 0
  | n + 1, m => (m 0).toNat + 256 * number n (shift 1 m)

theorem number_lt (n : ℕ) (m : Memory) : number n m < 256 ^ n := by
  induction n generalizing m with
  | zero => exact Nat.one_pos
  | succ n ih =>
    have hbyte := (m 0).toNat_lt
    have hrest := ih (shift 1 m)
    rw [number, Nat.pow_succ]
    omega

theorem starts_littleEndian {n w : ℕ} (hw : w < 256 ^ n) : Starts m (littleEndian n w) ↔ number n m = w := by
  induction n generalizing w m with
  | zero =>
    obtain rfl : w = 0 := by simpa using hw
    exact iff_of_true (starts_nil m) rfl
  | succ n ih =>
    have hrest : w / 256 < 256 ^ n := Nat.div_lt_of_lt_mul (by rwa [Nat.mul_comm, ← Nat.pow_succ])
    have hbyte : m 0 = UInt8.ofNat w ↔ (m 0).toNat = w % 256 := by
      rw [← UInt8.toNat_inj]
      simp
    have hlt := (m 0).toNat_lt
    rw [littleEndian, starts_cons, ih hrest, number, hbyte]
    omega

def unsigned {α : Type} (n : ℕ) (toNat : α → ℕ) (ofNat : ℕ → α) (hlt : ∀ v, toNat v < 256 ^ n)
    (hofNat : ∀ w < 256 ^ n, ∀ v, ofNat w = v ↔ w = toNat v) : Layout α where
  size := n
  encode v := littleEndian n (toNat v)
  decode m := some (ofNat (number n m))
  length_encode v := length_littleEndian n (toNat v)
  decode_eq_some m v := by
    rw [starts_littleEndian (hlt v), ← hofNat _ (number_lt n m) v, Option.some.injEq]

end CacheCoherence.Layouts
