import Mathlib.Data.BitVec
import TreeCompiler.Selection.Operation

/-!
# Memory — words, immediates and the bytes of memory

A word has 64 bits.  An immediate has 32 and is extended by its sign, which is the constant itself
where it fits (`immediate_eq`).  Memory is a map from addresses to bytes, and a word lies in eight
of them, the lowest first.  A word that was stored is what is loaded from its address
(`load_store`), and from any address whose bytes are all apart from it what was there before
(`load_store_of_apart`).

An `Area` is a stretch of words from an address upwards.
-/

namespace TreeCompiler

abbrev Word := BitVec 64

abbrev Byte := BitVec 8

/-! ## Immediates -/

/-- The word of an immediate: its low 32 bits, extended by their sign. -/
def immediate (c : Int) : Word := (BitVec.ofInt 32 c).signExtend 64

theorem isImm32_iff {c : Int} : isImm32 c = true ↔ -2 ^ 31 ≤ c ∧ c < 2 ^ 31 := by
  simp only [isImm32, Bool.and_eq_true, decide_eq_true_eq]
  omega

/-- A constant that fits is the value of its immediate. -/
theorem immediate_eq {c : Int} (h : isImm32 c = true) : immediate c = BitVec.ofInt 64 c := by
  have hc := isImm32_iff.1 h
  apply BitVec.eq_of_toInt_eq
  rw [immediate, BitVec.toInt_signExtend_of_le (by decide), BitVec.toInt_ofInt, BitVec.toInt_ofInt,
    Int.bmod_eq_of_le (by omega) (by omega), Int.bmod_eq_of_le (by omega) (by omega)]

/-! ## Bytes -/

abbrev Memory := Word → Byte

/-- The address of a byte of the word at an address. -/
def byteAddress (a : Word) (n : Nat) : Word := a + BitVec.ofNat 64 n

namespace Memory

variable {m m' : Memory} {a b v : Word}

/-- The bytes from an address on, the lowest first. -/
def bytes (m : Memory) (a : Word) : (n : Nat) → BitVec (8 * n)
  | 0 => 0#0
  | n + 1 => (m (byteAddress a n) ++ bytes m a n).cast (Nat.add_comm 8 (8 * n))

/-- The word at an address. -/
def load (m : Memory) (a : Word) : Word := bytes m a 8

/-- Put a word at an address. -/
def store (m : Memory) (a v : Word) : Memory := fun x =>
  if (x - a).toNat < 8 then v.extractLsb' (8 * (x - a).toNat) 8 else m x

theorem bytes_congr {k : Nat} (h : ∀ n < k, m (byteAddress a n) = m' (byteAddress a n)) :
    m.bytes a k = m'.bytes a k := by
  induction k with
  | zero => rfl
  | succ k ih =>
      unfold bytes
      rw [h k (Nat.lt_succ_self k), ih fun n hn => h n (Nat.lt_succ_of_lt hn)]

theorem load_congr (h : ∀ n < 8, m (byteAddress a n) = m' (byteAddress a n)) :
    m.load a = m'.load a := bytes_congr h

theorem getLsbD_bytes {k i : Nat} (h : i < 8 * k) :
    (m.bytes a k).getLsbD i = (m (byteAddress a (i / 8))).getLsbD (i % 8) := by
  induction k with
  | zero => omega
  | succ k ih =>
      unfold bytes
      rw [BitVec.getLsbD_cast, BitVec.getLsbD_append]
      split
      · rename_i hlt
        exact ih hlt
      · rename_i hge
        rw [show i / 8 = k by omega, show i % 8 = i - 8 * k by omega]

theorem toNat_byteAddress_sub {n : Nat} (h : n < 8) : (byteAddress a n - a).toNat = n := by
  rw [byteAddress, BitVec.add_comm, BitVec.add_sub_cancel, BitVec.toNat_ofNat]
  omega

theorem load_store : (m.store a v).load a = v := by
  apply BitVec.eq_of_getLsbD_eq
  intro i hi
  have hbyte : i / 8 < 8 := by omega
  have hbit : i % 8 < 8 := by omega
  unfold load
  rw [getLsbD_bytes (by omega), store, toNat_byteAddress_sub hbyte, if_pos hbyte,
    BitVec.getLsbD_extractLsb', decide_eq_true hbit, Bool.true_and, Nat.div_add_mod]

/-- Storing a word leaves the bytes behind its eight as they were. -/
theorem store_apply_of_apart {x : Word} (h : 8 ≤ (x - a).toNat) : m.store a v x = m x :=
  if_neg (by omega)

theorem load_store_of_apart (h : ∀ n < 8, 8 ≤ (byteAddress b n - a).toNat) :
    (m.store a v).load b = m.load b :=
  load_congr fun n hn => store_apply_of_apart (h n hn)

end Memory

/-! ## Areas -/

/-- Some words from an address upwards. -/
structure Area where
  base : Word
  words : Nat

namespace Area

variable {A : Area} {m m' : Memory} {a x : Word} {n k : Nat}

def contains (A : Area) (x : Word) : Bool := (x - A.base).toNat < 8 * A.words

/-- Whether a byte of the word at an address is in the area. -/
def meets (A : Area) (a : Word) : Bool :=
  (List.range 8).any fun n => A.contains (byteAddress a n)

/-- The address of a word of the area. -/
def word (A : Area) (n : Nat) : Word := A.base + BitVec.ofNat 64 (8 * n)

/-- Memories that differ in the area only. -/
def Outside (A : Area) (m m' : Memory) : Prop := ∀ x, A.contains x = false → m' x = m x

theorem Outside.refl (A : Area) (m : Memory) : A.Outside m m := fun _ _ => rfl

theorem Outside.trans {m'' : Memory} (h : A.Outside m m') (h' : A.Outside m' m'') :
    A.Outside m m'' := fun x hx => (h' x hx).trans (h x hx)

theorem Outside.load (h : A.Outside m m') (ha : A.meets a = false) : m'.load a = m.load a := by
  refine Memory.load_congr fun n hn => h _ ?_
  simp only [meets, List.any_eq_false, List.mem_range] at ha
  exact Bool.eq_false_iff.2 (ha n hn)

theorem toNat_byteAddress_word_sub (hA : 8 * A.words ≤ 2 ^ 31) (hk : k < A.words) (hn : n < 8) :
    (byteAddress (A.word k) n - A.base).toNat = 8 * k + n := by
  have hsum : byteAddress (A.word k) n - A.base = BitVec.ofNat 64 (8 * k + n) := by
    rw [byteAddress, word, BitVec.add_assoc, BitVec.add_comm, BitVec.add_sub_cancel,
      BitVec.ofNat_add]
  rw [hsum, BitVec.toNat_ofNat]
  omega

/-- Storing a word of the area changes nothing else. -/
theorem Outside.store (h : A.Outside m m') (hA : 8 * A.words ≤ 2 ^ 31) (hk : k < A.words)
    (v : Word) : A.Outside m (m'.store (A.word k) v) := by
  intro x hx
  rw [Memory.store_apply_of_apart, h x hx]
  by_contra hlt
  -- a byte of the word would be a byte of the area
  have hx' : x = byteAddress (A.word k) (x - A.word k).toNat := by
    rw [byteAddress, BitVec.ofNat_toNat, BitVec.setWidth_eq, BitVec.add_comm,
      BitVec.sub_add_cancel]
  have hsub := toNat_byteAddress_word_sub hA hk (show (x - A.word k).toNat < 8 by omega)
  rw [← hx'] at hsub
  simp only [contains, decide_eq_false_iff_not] at hx
  omega

/-- Storing one word of the area leaves the other ones. -/
theorem load_store_of_ne {m : Memory} (hA : 8 * A.words ≤ 2 ^ 31) (hk : k < A.words)
    (hn : n < A.words) (hne : k ≠ n) (v : Word) :
    (m.store (A.word k) v).load (A.word n) = m.load (A.word n) := by
  apply Memory.load_store_of_apart
  intro j hj
  have hsub : byteAddress (A.word n) j - A.word k
      = BitVec.ofNat 64 (8 * n + j) - BitVec.ofNat 64 (8 * k) := by
    rw [byteAddress, word, word, BitVec.ofNat_add]
    generalize BitVec.ofNat 64 (8 * n) = p
    generalize BitVec.ofNat 64 (8 * k) = q
    bv_omega
  rw [hsub, BitVec.toNat_sub, BitVec.toNat_ofNat, BitVec.toNat_ofNat]
  omega

end Area

end TreeCompiler
