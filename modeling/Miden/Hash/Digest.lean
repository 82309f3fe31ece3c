import Miden.Felt
import Mathlib.Data.List.FinRange

/-!
# The byte encoding of `RpoDigest` (crypto/src/hash/rpo/digest.rs:42-53, 185-202, 234-253)

A digest is a word of four field elements. `as_bytes` writes the canonical value of each
element, as a `u64`, in eight little-endian bytes, one element after the other; `try_from` of
a 32-byte array reads the four little-endian `u64` limbs back and fails with `OutOfRange`
when one of them is not below `Felt::MODULUS`.

Bytes are `UInt8`, and a `[u8; 32]` is a list that carries its length. Since the canonical
value of an element is below the modulus, `try_from` decodes every encoding to its digest,
and it accepts exactly the arrays whose limbs are canonical, each of which `as_bytes` gives
back.

`Serializable` writes the same 32 bytes, and `Deserializable::read_from` reads the four limbs
from a stream one at a time, rejecting each as it goes. Its loop is `readFromStep` over the
limb indices; on a stream of four 8-byte blocks it computes what `try_from` computes on their
concatenation (`readFrom_append`), and a call that returns has read exactly 32 bytes.
-/

namespace Miden

/-- `[u8; 32]`. -/
@[ext] structure Bytes32 where
  bytes : List UInt8
  length_eq : bytes.length = 32

/-- `RpoDigest` (digest.rs:19): a word of four field elements. -/
@[ext] structure RpoDigest where
  word : Word

/-- The variant of `HexParseError` (outside the sources) that `try_from` returns. -/
inductive HexParseError where
  | outOfRange
  deriving DecidableEq, Repr

/-! ### Little-endian limbs -/

/-- The `n` low bytes of `x`, least significant first: `u64::to_le_bytes` for `n = 8`. -/
def leBytes : Nat → Nat → List UInt8
  | 0, _ => []
  | n + 1, x => UInt8.ofNat x :: leBytes n (x / 256)

/-- `u64::from_le_bytes`: the value of bytes given least significant first. -/
def fromLeBytes : List UInt8 → Nat
  | [] => 0
  | b :: bs => b.toNat + 256 * fromLeBytes bs

/-- `value[i..j]`. -/
def slice (l : List UInt8) (i j : Nat) : List UInt8 := (l.drop i).take (j - i)

@[simp] theorem length_leBytes (n x : Nat) : (leBytes n x).length = n := by
  induction n generalizing x with
  | zero => rfl
  | succ n ih => simp [leBytes, ih]

theorem fromLeBytes_leBytes (n x : Nat) : fromLeBytes (leBytes n x) = x % 256 ^ n := by
  induction n generalizing x with
  | zero => rw [Nat.pow_zero, Nat.mod_one]; rfl
  | succ n ih =>
    rw [leBytes, fromLeBytes, ih, Nat.pow_succ', Nat.mod_mul]
    rfl

theorem leBytes_fromLeBytes (bs : List UInt8) : leBytes bs.length (fromLeBytes bs) = bs := by
  induction bs with
  | nil => rfl
  | cons b bs ih =>
    have hb : b.toNat < 256 := b.toNat_lt_size
    rw [List.length_cons, leBytes, fromLeBytes,
      show (b.toNat + 256 * fromLeBytes bs) / 256 = fromLeBytes bs by omega, ih]
    exact congrArg (· :: bs)
      (UInt8.toNat.inj (show (b.toNat + 256 * fromLeBytes bs) % 256 = b.toNat by omega))

theorem take_append_slice (l : List UInt8) {i j : Nat} (h : i ≤ j) :
    l.take i ++ slice l i j = l.take j := by
  rw [slice, ← List.take_add, Nat.add_sub_cancel' h]

theorem length_slice {l : List UInt8} {i j : Nat} (h : j ≤ l.length) :
    (slice l i j).length = j - i := by
  simp only [slice, List.length_take, List.length_drop]
  omega

theorem slices_eq {l : List UInt8} (h : l.length = 32) :
    slice l 0 8 ++ slice l 8 16 ++ slice l 16 24 ++ slice l 24 32 = l := by
  rw [show slice l 0 8 = l.take 8 from rfl, take_append_slice _ (by decide),
    take_append_slice _ (by decide), take_append_slice _ (by decide), List.take_of_length_le h.le]

theorem slice_append {a b c d : List UInt8} (ha : a.length = 8) (hb : b.length = 8)
    (hc : c.length = 8) (hd : d.length = 8) :
    slice (a ++ (b ++ (c ++ d))) 0 8 = a ∧ slice (a ++ (b ++ (c ++ d))) 8 16 = b ∧
      slice (a ++ (b ++ (c ++ d))) 16 24 = c ∧ slice (a ++ (b ++ (c ++ d))) 24 32 = d := by
  simp [slice, List.drop_append_eq_append_drop, List.take_append_eq_append_take, ha, hb, hc,
    hd, List.drop_eq_nil_of_le]

theorem leBytes_limb {l : List UInt8} (h : l.length = 32) {i j : Nat} (hij : j = i + 8)
    (hj : j ≤ 32) : leBytes 8 (fromLeBytes (slice l i j)) = slice l i j := by
  subst hij
  have := leBytes_fromLeBytes (slice l i (i + 8))
  rwa [length_slice (by omega), Nat.add_sub_cancel_left] at this

theorem fromLeBytes_asInt (x : Felt) : fromLeBytes (leBytes 8 x.asInt) = x.asInt := by
  rw [fromLeBytes_leBytes, Nat.mod_eq_of_lt (lt_of_lt_of_le x.asInt_lt (by decide))]

/-! ### `as_bytes` and `try_from` -/

/-- `Digest::as_bytes` (digest.rs:43): `as_int().to_le_bytes()` of each element, in
`result[..8]`, `result[8..16]`, `result[16..24]` and `result[24..]`. -/
def RpoDigest.asBytes (d : RpoDigest) : Bytes32 :=
  ⟨leBytes 8 (d.word 0).asInt ++ leBytes 8 (d.word 1).asInt ++ leBytes 8 (d.word 2).asInt ++
    leBytes 8 (d.word 3).asInt, by simp⟩

/-- `TryFrom<[u8; 32]> for RpoDigest` (digest.rs:188). -/
def RpoDigest.tryFrom (value : Bytes32) : Except HexParseError RpoDigest :=
  let a := fromLeBytes (slice value.bytes 0 8)
  let b := fromLeBytes (slice value.bytes 8 16)
  let c := fromLeBytes (slice value.bytes 16 24)
  let d := fromLeBytes (slice value.bytes 24 32)
  if [a, b, c, d].any (· ≥ modulus) then .error .outOfRange
  else .ok ⟨![Felt.new a, Felt.new b, Felt.new c, Felt.new d]⟩

theorem tryFrom_eq_ok {bs : Bytes32} {d : RpoDigest} :
    RpoDigest.tryFrom bs = .ok d ↔
      (∀ k < 4, fromLeBytes (slice bs.bytes (8 * k) (8 * k + 8)) < modulus) ∧
        d = ⟨![Felt.new (fromLeBytes (slice bs.bytes 0 8)),
          Felt.new (fromLeBytes (slice bs.bytes 8 16)),
          Felt.new (fromLeBytes (slice bs.bytes 16 24)),
          Felt.new (fromLeBytes (slice bs.bytes 24 32))]⟩ := by
  dsimp only [RpoDigest.tryFrom]
  split_ifs with h <;> simp_all [Nat.forall_lt_succ_right]
  · intros
    omega
  · exact eq_comm

/-- The encoding decodes back to the digest; an array decodes exactly when its four
little-endian limbs are below the modulus, and then encodes back to itself. -/
theorem tryFrom_asBytes :
    (∀ d : RpoDigest, RpoDigest.tryFrom d.asBytes = .ok d) ∧
    ∀ bs : Bytes32,
      ((∃ d, RpoDigest.tryFrom bs = .ok d) ↔
        ∀ k < 4, fromLeBytes (slice bs.bytes (8 * k) (8 * k + 8)) < modulus) ∧
      ∀ d, RpoDigest.tryFrom bs = .ok d → d.asBytes = bs := by
  refine ⟨fun d => tryFrom_eq_ok.2 ⟨?_, ?_⟩, fun bs => ⟨⟨fun ⟨d, h⟩ => (tryFrom_eq_ok.1 h).1,
    fun h => ⟨_, tryFrom_eq_ok.2 ⟨h, rfl⟩⟩⟩, fun d h => ?_⟩⟩
  · simp [Nat.forall_lt_succ_right, RpoDigest.asBytes, slice_append, fromLeBytes_asInt,
      Felt.asInt_lt]
  · ext i
    fin_cases i <;> simp [RpoDigest.asBytes, slice_append, fromLeBytes_asInt]
  · obtain ⟨hlt, rfl⟩ := tryFrom_eq_ok.1 h
    simp only [Nat.forall_lt_succ_right, Nat.not_lt_zero, false_implies, implies_true,
      true_and] at hlt
    ext1
    simpa [RpoDigest.asBytes, hlt, leBytes_limb bs.length_eq] using slices_eq bs.length_eq

/-- A first limb equal to the modulus is rejected; one below it is accepted. -/
example : (RpoDigest.tryFrom ⟨leBytes 8 modulus ++ List.replicate 24 0, by simp⟩).isOk = false ∧
    (RpoDigest.tryFrom ⟨leBytes 8 (modulus - 1) ++ List.replicate 24 0, by simp⟩).isOk = true := by
  decide

/-! ### `write_into` and `read_from` -/

/-- `DeserializationError` (winter-utils, outside the sources): the variants `read_from` can
return. -/
inductive DeserializationError where
  | invalidValue (msg : String)
  | unexpectedEOF
  deriving DecidableEq, Repr

/-- `ByteReader::read_u64` of a slice reader (winter-utils, outside the sources): the next
eight bytes as a little-endian `u64`, or `UnexpectedEOF` when fewer remain. -/
def readU64 (source : List UInt8) : Except DeserializationError (Nat × List UInt8) :=
  if source.length < 8 then .error .unexpectedEOF
  else .ok (fromLeBytes (source.take 8), source.drop 8)

/-- `Serializable::write_into` (digest.rs:235): the bytes of `as_bytes` after the target's. -/
def RpoDigest.writeInto (d : RpoDigest) (target : List UInt8) : List UInt8 :=
  target ++ d.asBytes.bytes

/-- One pass of the loop of `read_from` (digest.rs:243-250): read a `u64`, reject it unless
it is below the modulus, and store its element. -/
def readFromStep (acc : Word × List UInt8) (i : Fin 4) :
    Except DeserializationError (Word × List UInt8) := do
  let (e, source) ← readU64 acc.2
  if e ≥ modulus then
    throw (.invalidValue "Value not in the appropriate range")
  pure (Function.update acc.1 i (Felt.new e), source)

/-- `Deserializable::read_from` (digest.rs:241): the four elements in turn, from
`[ZERO; DIGEST_SIZE]`. -/
def RpoDigest.readFrom (source : List UInt8) :
    Except DeserializationError (RpoDigest × List UInt8) := do
  let (inner, source) ← (List.finRange 4).foldlM readFromStep (fun _ => 0, source)
  pure (⟨inner⟩, source)

theorem except_ok_bind {ε α β : Type} (a : α) (f : α → Except ε β) :
    (Except.ok a >>= f) = f a := rfl

theorem readU64_append {blk : List UInt8} (h : blk.length = 8) (rest : List UInt8) :
    readU64 (blk ++ rest) = .ok (fromLeBytes blk, rest) := by
  simp [readU64, h, List.take_left' h, List.drop_left' h]

theorem readU64_eq_ok {source rest : List UInt8} {e : Nat} :
    readU64 source = .ok (e, rest) ↔ ∃ blk, blk.length = 8 ∧ source = blk ++ rest ∧
      e = fromLeBytes blk := by
  constructor
  · unfold readU64
    split_ifs with h
    · exact fun h' => nomatch h'
    · intro h'
      cases h'
      exact ⟨source.take 8, by simp; omega, (List.take_append_drop 8 source).symm, rfl⟩
  · rintro ⟨blk, hb, rfl, rfl⟩
    exact readU64_append hb rest

theorem readFromStep_of_readU64 {acc : Word × List UInt8} {e : Nat} {rest : List UInt8}
    (h : readU64 acc.2 = .ok (e, rest)) (i : Fin 4) :
    readFromStep acc i = if modulus ≤ e then
      .error (.invalidValue "Value not in the appropriate range")
    else .ok (Function.update acc.1 i (Felt.new e), rest) := by
  rw [readFromStep, h, except_ok_bind]
  dsimp only
  split_ifs <;> rfl

theorem readFromStep_eq_ok {acc acc' : Word × List UInt8} {i : Fin 4} :
    readFromStep acc i = .ok acc' ↔ ∃ blk, blk.length = 8 ∧ acc.2 = blk ++ acc'.2 ∧
      fromLeBytes blk < modulus ∧ acc'.1 = Function.update acc.1 i (Felt.new (fromLeBytes blk)) := by
  constructor
  · intro h
    cases hr : readU64 acc.2 with
    | error err => rw [readFromStep, hr] at h; exact nomatch h
    | ok p =>
      obtain ⟨e, rest⟩ := p
      obtain ⟨blk, hblk, hsrc, rfl⟩ := readU64_eq_ok.1 hr
      rw [readFromStep_of_readU64 hr] at h
      split_ifs at h with hm
      cases h
      exact ⟨blk, hblk, hsrc, by omega, rfl⟩
  · rintro ⟨blk, hblk, hsrc, hlt, hacc⟩
    rw [readFromStep_of_readU64 (hsrc ▸ readU64_append hblk acc'.2), if_neg (by omega), ← hacc]

theorem foldlM_readFromStep (rest : List UInt8) :
    ∀ (l : List (Fin 4)) (blocks : List (List UInt8)) (inner : Word),
      blocks.length = l.length → (∀ blk ∈ blocks, blk.length = 8) →
      l.foldlM readFromStep (inner, blocks.flatten ++ rest) =
        if (blocks.map fromLeBytes).any (· ≥ modulus) then
          .error (.invalidValue "Value not in the appropriate range")
        else .ok ((l.zip blocks).foldl (fun w p => Function.update w p.1 (Felt.new (fromLeBytes p.2)))
          inner, rest)
  | [], [], _, _, _ => rfl
  | i :: l, blk :: blocks, inner, hlen, hblk => by
    obtain ⟨h8, hblk⟩ := List.forall_mem_cons.1 hblk
    rw [List.foldlM_cons, List.flatten_cons, List.append_assoc,
      readFromStep_of_readU64 (readU64_append h8 _)]
    by_cases hm : modulus ≤ fromLeBytes blk
    · simp only [if_pos hm, List.map_cons, List.any_cons, ge_iff_le, decide_eq_true hm,
        Bool.true_or]
      rfl
    · simp only [if_neg hm, except_ok_bind, List.map_cons, List.any_cons, ge_iff_le,
        decide_eq_false hm, Bool.false_or, List.zip_cons_cons, List.foldl_cons]
      exact foldlM_readFromStep rest l blocks _ (by simpa using hlen) hblk
  | [], _ :: _, _, hlen, _ => nomatch hlen
  | _ :: _, [], _, hlen, _ => nomatch hlen

theorem foldlM_readFromStep_eq_ok :
    ∀ (l : List (Fin 4)) (acc acc' : Word × List UInt8), l.foldlM readFromStep acc = .ok acc' →
      ∃ blocks : List (List UInt8), blocks.length = l.length ∧ (∀ blk ∈ blocks, blk.length = 8) ∧
        acc.2 = blocks.flatten ++ acc'.2
  | [], acc, acc', h => by
    cases h
    exact ⟨[], rfl, fun _ h => absurd h (List.not_mem_nil _), rfl⟩
  | i :: l, acc, acc', h => by
    rw [List.foldlM_cons] at h
    cases hs : readFromStep acc i with
    | error e => rw [hs] at h; exact nomatch h
    | ok mid =>
      rw [hs, except_ok_bind] at h
      obtain ⟨blk, hblk, hsrc, -, -⟩ := readFromStep_eq_ok.1 hs
      obtain ⟨blocks, hlen, hall, hrest⟩ := foldlM_readFromStep_eq_ok l mid acc' h
      exact ⟨blk :: blocks, by simp [hlen], List.forall_mem_cons.2 ⟨hblk, hall⟩,
        by rw [hsrc, hrest]; simp⟩

theorem readFrom_append (bs : Bytes32) (rest : List UInt8) :
    RpoDigest.readFrom (bs.bytes ++ rest) = ((RpoDigest.tryFrom bs).map (·, rest)).mapError
      fun _ => .invalidValue "Value not in the appropriate range" := by
  have hb : bs.bytes = [slice bs.bytes 0 8, slice bs.bytes 8 16, slice bs.bytes 16 24,
      slice bs.bytes 24 32].flatten := by
    simpa using (slices_eq bs.length_eq).symm
  rw [RpoDigest.readFrom, hb, show List.finRange 4 = [0, 1, 2, 3] from rfl,
    foldlM_readFromStep rest [0, 1, 2, 3] _ _ rfl (by simp [length_slice, bs.length_eq])]
  dsimp only [RpoDigest.tryFrom]
  simp only [List.map_cons, List.map_nil]
  split_ifs
  · rfl
  · rw [except_ok_bind]
    show Except.ok ((⟨_⟩ : RpoDigest), rest) = Except.ok ((⟨_⟩ : RpoDigest), rest)
    congr 3
    funext i
    fin_cases i <;> rfl

/-- `write_into` followed by `read_from` gives back every digest and leaves the rest of the
stream; on a 32-byte array followed by any stream `read_from` agrees with `try_from`, failing
with `InvalidValue` where `try_from` fails with `OutOfRange`; and a call that returns has
consumed exactly 32 bytes, so a shorter stream always fails. -/
theorem readFrom_writeInto :
    (∀ (d : RpoDigest) (rest : List UInt8),
      RpoDigest.readFrom (d.writeInto [] ++ rest) = .ok (d, rest)) ∧
    (∀ (bs : Bytes32) (rest : List UInt8), RpoDigest.readFrom (bs.bytes ++ rest) =
      ((RpoDigest.tryFrom bs).map (·, rest)).mapError
        fun _ => .invalidValue "Value not in the appropriate range") ∧
    ∀ (source rest : List UInt8) (d : RpoDigest), RpoDigest.readFrom source = .ok (d, rest) →
      ∃ bs : Bytes32, source = bs.bytes ++ rest := by
  refine ⟨fun d rest => ?_, readFrom_append, fun source rest d h => ?_⟩
  · have hb : d.writeInto [] = [leBytes 8 (d.word 0).asInt, leBytes 8 (d.word 1).asInt,
        leBytes 8 (d.word 2).asInt, leBytes 8 (d.word 3).asInt].flatten := by
      simp [RpoDigest.writeInto, RpoDigest.asBytes]
    rw [RpoDigest.readFrom, hb, show List.finRange 4 = [0, 1, 2, 3] from rfl,
      foldlM_readFromStep rest [0, 1, 2, 3] _ _ rfl (by simp)]
    simp only [List.map_cons, List.map_nil, fromLeBytes_asInt]
    rw [if_neg (by simp [Felt.asInt_lt]), except_ok_bind]
    congr 2
    ext i
    fin_cases i <;> simp [Function.update, fromLeBytes_asInt]
  · rw [RpoDigest.readFrom] at h
    cases hf : (List.finRange 4).foldlM readFromStep ((fun _ => 0 : Word), source) with
    | error e => rw [hf] at h; exact nomatch h
    | ok acc =>
      rw [hf, except_ok_bind] at h
      cases h
      obtain ⟨blocks, hlen, hall, hsrc⟩ := foldlM_readFromStep_eq_ok _ _ _ hf
      refine ⟨⟨blocks.flatten, ?_⟩, hsrc⟩
      rcases blocks with _ | ⟨b0, _ | ⟨b1, _ | ⟨b2, _ | ⟨b3, _ | ⟨_, _⟩⟩⟩⟩⟩ <;>
        simp at hlen
      simp [hall]

/-! ### `Ord for RpoDigest` -/

/-- `Ord for RpoDigest` (digest.rs:64): the inner values of the elements, zipped and folded
from `Equal`, the first pair that is not `Equal` deciding. `Felt::inner` (winter-math, outside
the sources) is the parameter `inner`. -/
def RpoDigest.cmp (inner : Felt → Nat) (a b : RpoDigest) : Ordering :=
  (((List.ofFn a.word).map inner).zip ((List.ofFn b.word).map inner)).foldl
    (fun ord p => match ord with
      | .eq => compare p.1 p.2
      | _ => ord) .eq

theorem ordering_then_assoc (a b c : Ordering) : (a.then b).then c = a.then (b.then c) := by
  cases a <;> rfl

theorem RpoDigest.cmp_eq_compareLex (inner : Felt → Nat) :
    RpoDigest.cmp inner = compareLex (compareOn fun d : RpoDigest => inner (d.word 0))
      (compareLex (compareOn fun d : RpoDigest => inner (d.word 1))
        (compareLex (compareOn fun d : RpoDigest => inner (d.word 2))
          (compareOn fun d : RpoDigest => inner (d.word 3)))) := by
  have hstep : ∀ (o : Ordering) (x y : Nat),
      (match o with
        | .eq => compare x y
        | _ => o) = o.then (compare x y) := fun o x y => by cases o <;> rfl
  funext a b
  simp only [RpoDigest.cmp, List.ofFn_succ, List.ofFn_zero, List.map_cons, List.map_nil,
    List.zip_cons_cons, List.zip_nil_left, List.foldl_cons, List.foldl_nil, hstep,
    ordering_then_assoc]
  rfl

/-- `cmp` is a lawful comparator for every `inner` (swapping the digests swaps the answer, and
the order it defines is transitive), and when `inner` is injective, as on the canonical inner
values the source relies on, it answers `Equal` exactly on equal digests. -/
theorem RpoDigest.cmp_lawful (inner : Felt → Nat) :
    Batteries.TransCmp (RpoDigest.cmp inner) ∧
      (Function.Injective inner → ∀ a b, RpoDigest.cmp inner a b = .eq ↔ a = b) := by
  rw [RpoDigest.cmp_eq_compareLex]
  refine ⟨inferInstance, fun hinj a b => ⟨fun h => ?_, fun h => h ▸ Batteries.OrientedCmp.cmp_refl⟩⟩
  simp only [compareLex, compareOn, Ordering.then_eq_eq, Nat.compare_eq_eq] at h
  obtain ⟨h0, h1, h2, h3⟩ := h
  ext i
  fin_cases i
  exacts [hinj h0, hinj h1, hinj h2, hinj h3]

theorem RpoDigest.cmp_lawful_asInt :
    Batteries.TransCmp (RpoDigest.cmp Felt.asInt) ∧ Function.Injective Felt.asInt ∧
      ∀ a b, RpoDigest.cmp Felt.asInt a b = .eq ↔ a = b :=
  have hinj : Function.Injective Felt.asInt := fun _ _ h => Felt.asInt_inj.1 h
  ⟨(RpoDigest.cmp_lawful Felt.asInt).1, hinj, (RpoDigest.cmp_lawful Felt.asInt).2 hinj⟩

end Miden
