import Mathlib

/-!
# Byte strings and fixed-size byte arrays

`Bytes` is a slice `&[u8]` of any length, `Block n` an array `[u8; n]`: the length is part of the
type, so a block of the wrong size cannot be built.

* `slice` reads a range of a slice, `copyInto` overwrites one
* `chunk` and `flatten` see an array of `k * n` bytes as `k` blocks of `n` bytes, and back
* `u32Be` / `u32Le` are the two byte orders of a 32-bit integer
-/

namespace Infra

/-- A byte string of any length. -/
abbrev Bytes := List UInt8

/-- A byte array of exactly `n` bytes. -/
abbrev Block (n : Nat) := List.Vector UInt8 n

/-- A block rebuilt from its bytes. -/
theorem mk_toList {n : Nat} (b : Block n) (h : b.toList.length = n) :
    (⟨b.toList, h⟩ : Block n) = b := List.Vector.eq _ _ (List.Vector.toList_mk _ h)

theorem getElem?_toList {n : Nat} (v : Block n) (j : Fin n) :
    v.toList[j.val]? = some (v.get j) := by
  have hj : j.val < v.toList.length := by simp
  rw [List.getElem?_eq_getElem hj, List.Vector.get_eq_get_toList]
  rfl

/-- Two blocks agree on their first `k` bytes iff they agree at every index below `k`. -/
theorem take_eq_take_iff {n k : Nat} {a b : Block n} :
    a.toList.take k = b.toList.take k ↔ ∀ j : Fin n, j.val < k → a.get j = b.get j := by
  constructor
  · intro h j hj
    have hget := congrArg (fun l => l[j.val]?) h
    simp only [List.getElem?_take, hj, if_true, getElem?_toList] at hget
    exact Option.some.inj hget
  · intro h
    refine List.ext_getElem? fun j => ?_
    rw [List.getElem?_take, List.getElem?_take]
    by_cases hj : j < k
    · by_cases hn : j < n
      · have ha := getElem?_toList a ⟨j, hn⟩
        have hb := getElem?_toList b ⟨j, hn⟩
        simp only at ha hb
        rw [if_pos hj, if_pos hj, ha, hb, h ⟨j, hn⟩ hj]
      · simp [hn]
    · simp [hj]

/-! ## Ranges -/

/-- The first `n` bytes of a slice. A slice that is too short is filled up with zeros. -/
def fit (n : Nat) (bs : Bytes) : Block n := ⟨bs.takeD n 0, List.takeD_length n bs 0⟩

theorem fit_toList {n : Nat} {bs : Bytes} (h : n ≤ bs.length) : (fit n bs).toList = bs.take n :=
  List.takeD_eq_take 0 h

/-- A block followed by anything is read back. -/
@[simp] theorem fit_append {n : Nat} (b : Block n) (bs : Bytes) : fit n (b.toList ++ bs) = b := by
  refine List.Vector.eq _ _ ?_
  rw [fit_toList (by simp), List.take_left' (by simp)]

/-- The `n` bytes that start at offset `off`. -/
def slice (bs : Bytes) (off n : Nat) : Block n := fit n (bs.drop off)

theorem slice_toList {bs : Bytes} {off n : Nat} (h : off + n ≤ bs.length) :
    (slice bs off n).toList = (bs.drop off).take n :=
  fit_toList (by rw [List.length_drop]; omega)

/-- A block that stands after `off` bytes is the slice at `off`. -/
theorem slice_append {n : Nat} {pre : Bytes} {off : Nat} (h : pre.length = off) (b : Block n)
    (post : Bytes) : slice (pre ++ (b.toList ++ post)) off n = b := by
  unfold slice
  rw [List.drop_left' h, fit_append]

/-- A slice that starts with the block. -/
theorem slice_zero_append {n : Nat} (b : Block n) (post : Bytes) :
    slice (b.toList ++ post) 0 n = b := by
  unfold slice
  rw [List.drop_zero, fit_append]

/-- A slice that ends with the block. -/
theorem slice_append_last {n : Nat} {pre : Bytes} {off : Nat} (h : pre.length = off) (b : Block n) :
    slice (pre ++ b.toList) off n = b := by
  have hb := slice_append h b []
  rwa [List.append_nil] at hb

/-- A slice and what comes after it. -/
theorem slice_append_drop (bs : Bytes) (off n : Nat) (h : off + n ≤ bs.length) :
    (slice bs off n).toList ++ bs.drop (off + n) = bs.drop off := by
  rw [slice_toList h, ← List.drop_drop, List.take_append_drop]

/-- A slice of a slice. -/
theorem slice_slice {bs : Bytes} {off n a k : Nat} (ha : a + k ≤ n) (h : off + n ≤ bs.length) :
    slice (slice bs off n).toList a k = slice bs (off + a) k := by
  refine List.Vector.eq _ _ ?_
  rw [slice_toList (by rw [List.Vector.toList_length]; exact ha), slice_toList h,
    slice_toList (by omega), List.drop_take, List.take_take, List.drop_drop,
    Nat.min_eq_left (by omega)]

/-- Two equal concatenations of equally long parts have equal parts. -/
theorem toList_append_inj {n : Nat} {a b : Block n} {s t : Bytes}
    (h : a.toList ++ s = b.toList ++ t) : a = b ∧ s = t := by
  obtain ⟨h1, h2⟩ := List.append_inj h (by simp)
  exact ⟨List.Vector.eq _ _ h1, h2⟩

/-! ## Writing -/

/-- An array of `n` zero bytes. -/
def zeros (n : Nat) : Block n := List.Vector.replicate n 0

@[simp] theorem zeros_toList (n : Nat) : (zeros n).toList = List.replicate n 0 := rfl

/-- Overwrite the bytes from offset `off` by `src`. Bytes that would go past the end are lost. -/
def copyInto {n : Nat} (b : Block n) (off : Nat) (src : Bytes) : Block n :=
  ⟨b.toList.take off ++ (src.take (n - off) ++ b.toList.drop (off + src.length)), by
    simp only [List.length_append, List.length_take, List.length_drop, List.Vector.toList_length]
    omega⟩

theorem copyInto_toList {n : Nat} {b : Block n} {off : Nat} {src : Bytes}
    (h : off + src.length ≤ n) :
    (copyInto b off src).toList
      = b.toList.take off ++ (src ++ b.toList.drop (off + src.length)) := by
  show b.toList.take off ++ (src.take (n - off) ++ b.toList.drop (off + src.length)) = _
  rw [List.take_of_length_le (show src.length ≤ n - off by omega)]

/-- Writing over the middle part of a concatenation replaces exactly that part. -/
theorem copyInto_append {n : Nat} {b : Block n} {off : Nat} {src pre post : Bytes} (mid : Bytes)
    (hb : b.toList = pre ++ (mid ++ post)) (hpre : pre.length = off)
    (hmid : mid.length = src.length) :
    (copyInto b off src).toList = pre ++ (src ++ post) := by
  have hn : pre.length + (mid.length + post.length) = n := by
    have hl := congrArg List.length hb
    simp only [List.Vector.toList_length, List.length_append] at hl
    omega
  rw [copyInto_toList (by omega), hb, List.take_left' hpre, ← hpre, ← hmid, ← List.drop_drop,
    List.drop_left, List.drop_left]

/-! ## Arrays of blocks -/

/-- The bytes of `k` blocks, one after the other. -/
def flattenList {n : Nat} : (k : Nat) → (Fin k → Block n) → Bytes
  | 0, _ => []
  | k + 1, a => (a 0).toList ++ flattenList k (fun i => a i.succ)

theorem flattenList_length {n : Nat} : ∀ (k : Nat) (a : Fin k → Block n),
    (flattenList k a).length = k * n
  | 0, _ => by simp [flattenList]
  | k + 1, a => by
    rw [flattenList, List.length_append, flattenList_length k, List.Vector.toList_length]
    ring

/-- `k` blocks of `n` bytes as one array. -/
def flatten {n k : Nat} (a : Fin k → Block n) : Block (k * n) :=
  ⟨flattenList k a, flattenList_length k a⟩

@[simp] theorem flatten_toList {n k : Nat} (a : Fin k → Block n) :
    (flatten a).toList = flattenList k a := rfl

/-- Block number `i` of a byte string cut into blocks of `n` bytes. -/
def chunk (n : Nat) (bs : Bytes) (i : Nat) : Block n := slice bs (i * n) n

theorem chunk_flattenList {n : Nat} : ∀ (k : Nat) (a : Fin k → Block n) (i : Fin k) (post : Bytes),
    chunk n (flattenList k a ++ post) i = a i
  | k + 1, a, ⟨0, _⟩, post => by
    unfold chunk slice
    simp [flattenList]
  | k + 1, a, ⟨i + 1, hi⟩, post => by
    have ih := chunk_flattenList k (fun i => a i.succ) ⟨i, by omega⟩ post
    unfold chunk slice at ih ⊢
    rw [flattenList, List.append_assoc, show (i + 1) * n = n + i * n by ring, ← List.drop_drop,
      List.drop_left' (by simp)]
    exact ih

/-- Cutting the concatenation gives the blocks back. -/
@[simp] theorem chunk_flatten {n k : Nat} (a : Fin k → Block n) (i : Fin k) :
    chunk n (flatten a).toList i = a i := by
  simpa using chunk_flattenList k a i []

/-- Joining the blocks of a byte string gives the byte string back. -/
theorem flattenList_chunk {n : Nat} : ∀ (k : Nat) (bs : Bytes), bs.length = k * n →
    flattenList k (fun i : Fin k => chunk n bs i) = bs
  | 0, bs, h => by
    rw [Nat.zero_mul] at h
    rw [List.length_eq_zero_iff.mp h, flattenList]
  | k + 1, bs, h => by
    have hlen : (bs.drop n).length = k * n := by
      rw [List.length_drop, h, Nat.succ_mul, Nat.add_sub_cancel]
    have hstep : ∀ i : Fin k, chunk n bs i.succ = chunk n (bs.drop n) i := by
      intro i
      unfold chunk slice
      rw [List.drop_drop, Fin.val_succ, show (i.val + 1) * n = n + i.val * n by ring]
    have hn : n ≤ bs.length := by rw [h, Nat.succ_mul]; omega
    rw [flattenList, funext hstep, flattenList_chunk k _ hlen]
    show (slice bs (0 * n) n).toList ++ _ = _
    rw [slice_toList (by omega), Nat.zero_mul, List.drop_zero, List.take_append_drop]

theorem flatten_chunk {n k : Nat} (b : Block (k * n)) :
    flatten (fun i : Fin k => chunk n b.toList i) = b :=
  List.Vector.eq _ _ (flattenList_chunk k b.toList (List.Vector.toList_length b))

/-- Two arrays of blocks with the same bytes are equal. -/
theorem flattenList_injective {n k : Nat} {a b : Fin k → Block n}
    (h : flattenList k a = flattenList k b) : a = b := by
  funext i
  rw [← chunk_flatten a i, ← chunk_flatten b i, flatten_toList, flatten_toList, h]

/-! ## 32-bit integers -/

/-- `u32::to_be_bytes`. -/
def u32Be (u : UInt32) : Block 4 :=
  ⟨[UInt8.ofNat (u.toNat / 2 ^ 24), UInt8.ofNat (u.toNat / 2 ^ 16), UInt8.ofNat (u.toNat / 2 ^ 8),
    UInt8.ofNat u.toNat], rfl⟩

/-- `u32::to_le_bytes`. -/
def u32Le (u : UInt32) : Block 4 :=
  ⟨[UInt8.ofNat u.toNat, UInt8.ofNat (u.toNat / 2 ^ 8), UInt8.ofNat (u.toNat / 2 ^ 16),
    UInt8.ofNat (u.toNat / 2 ^ 24)], rfl⟩

/-- `u32::from_be_bytes`. -/
def u32OfBe (b : Block 4) : UInt32 :=
  UInt32.ofNat ((b.get 0).toNat * 2 ^ 24 + (b.get 1).toNat * 2 ^ 16 + (b.get 2).toNat * 2 ^ 8
    + (b.get 3).toNat)

/-- The big-endian bytes of an integer read back as that integer. -/
@[simp] theorem u32OfBe_u32Be (u : UInt32) : u32OfBe (u32Be u) = u := by
  have hu : u.toNat < 2 ^ 32 := u.toNat_lt
  have h0 : ((u32Be u).get 0).toNat = u.toNat / 2 ^ 24 % 256 := by simp [u32Be, List.Vector.get]
  have h1 : ((u32Be u).get 1).toNat = u.toNat / 2 ^ 16 % 256 := by simp [u32Be, List.Vector.get]
  have h2 : ((u32Be u).get 2).toNat = u.toNat / 2 ^ 8 % 256 := by simp [u32Be, List.Vector.get]
  have h3 : ((u32Be u).get 3).toNat = u.toNat % 256 := by simp [u32Be, List.Vector.get]
  refine UInt32.toNat_inj.mp ?_
  unfold u32OfBe
  rw [h0, h1, h2, h3, UInt32.toNat_ofNat']
  omega

theorem u32Be_injective {u v : UInt32} (h : u32Be u = u32Be v) : u = v := by
  rw [← u32OfBe_u32Be u, h, u32OfBe_u32Be]

/-- Four bytes read as big-endian and written again are unchanged. -/
@[simp] theorem u32Be_u32OfBe (b : Block 4) : u32Be (u32OfBe b) = b := by
  obtain ⟨l, hl⟩ := b
  match l, hl with
  | [b0, b1, b2, b3], _ =>
    have h0 := b0.toNat_lt
    have h1 := b1.toNat_lt
    have h2 := b2.toNat_lt
    have h3 := b3.toNat_lt
    have hv : (u32OfBe ⟨[b0, b1, b2, b3], rfl⟩).toNat
        = b0.toNat * 2 ^ 24 + b1.toNat * 2 ^ 16 + b2.toNat * 2 ^ 8 + b3.toNat := by
      simp only [u32OfBe, List.Vector.get, UInt32.toNat_ofNat']
      simp
      omega
    refine List.Vector.eq _ _ ?_
    simp only [u32Be, hv, List.Vector.toList_mk, List.cons.injEq, and_true]
    refine ⟨?_, ?_, ?_, ?_⟩ <;> refine UInt8.toNat_inj.mp ?_ <;>
      rw [UInt8.toNat_ofNat'] <;> omega

end Infra
