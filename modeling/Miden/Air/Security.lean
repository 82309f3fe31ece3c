import Miden.Uint

/-!
# Conjectured security of a STARK proof (winterfell/air/src/proof/mod.rs:107-209)

`StarkProof::security_level(true)` estimates the soundness of a proof in bits with
`get_conjectured_security`: the field gives the bits of the extension field less the
trailing zeros of the trace length, each query gives `log2(blowup)` bits, the grinding factor
is added once the queries reach `GRINDING_CONTRIBUTION_FLOOR` bits, and the estimate, one bit
below the weaker of the two, is capped by the collision resistance of the hash function.

The arithmetic is on `u32`: an overflow or an underflow panics in debug builds (`none`), and
`ilog2` panics on a zero blowup factor. `ProofOptions` and the proof context are outside the
sources; the model takes the values their accessors return.

`conjecturedSecurity` is the estimate as a formula over `Nat`; a call that returns computes it
(`getConjecturedSecurity_eq_some`). The estimate never exceeds the collision resistance and
does not decrease when the number of queries or the blowup factor grows.
-/

namespace Miden.Air

/-- The values `get_conjectured_security` reads from `ProofOptions`:
`field_extension().degree()`, `blowup_factor()`, `num_queries()` and `grinding_factor()`. -/
structure ProofOptions where
  extensionDegree : Nat
  blowupFactor : Nat
  numQueries : Nat
  grindingFactor : Nat

/-- `GRINDING_CONTRIBUTION_FLOOR`. -/
def grindingContributionFloor : Nat := 80

/-- `usize::ilog2`: it panics on zero. -/
def ilog2 (n : Nat) : Option Nat := if n = 0 then none else some n.log2

/-- `u64::trailing_zeros`: the index of the lowest set bit, 64 for zero. -/
def trailingZeros (n : Nat) : Nat := ((List.range 64).find? n.testBit).getD 64

example : trailingZeros (2 ^ 20) = 20 ∧ trailingZeros 0 = 64 := by decide

/-- `get_conjectured_security` (proof/mod.rs:187). -/
def getConjecturedSecurity (options : ProofOptions)
    (baseFieldBits traceDomainSize collisionResistance : Nat) : Option Nat := do
  let fieldSize ← uintFit 32 (baseFieldBits * options.extensionDegree)
  let fieldSecurity ← uintSub fieldSize (trailingZeros traceDomainSize)
  let securityPerQuery ← ilog2 options.blowupFactor
  let querySecurity ← uintFit 32 (securityPerQuery * (options.numQueries % 2 ^ 32))
  let querySecurity ← if querySecurity ≥ grindingContributionFloor then
      uintFit 32 (querySecurity + options.grindingFactor) else pure querySecurity
  let security ← uintSub (min fieldSecurity querySecurity) 1
  pure (min security collisionResistance)

/-! ### The estimate as a formula -/

/-- The bits of the queries: `log2(blowup)` per query, and the grinding factor once they
reach the floor. -/
def querySecurity (options : ProofOptions) : Nat :=
  let q := options.blowupFactor.log2 * (options.numQueries % 2 ^ 32)
  q + if grindingContributionFloor ≤ q then options.grindingFactor else 0

/-- The conjectured security: one bit below the weaker of the field and the queries, at most
the collision resistance. -/
def conjecturedSecurity (options : ProofOptions)
    (baseFieldBits traceDomainSize collisionResistance : Nat) : Nat :=
  min (min (baseFieldBits * options.extensionDegree - trailingZeros traceDomainSize)
    (querySecurity options) - 1) collisionResistance

theorem getConjecturedSecurity_eq_some {options : ProofOptions} {b t c s : Nat}
    (h : getConjecturedSecurity options b t c = some s) :
    1 ≤ min (b * options.extensionDegree - trailingZeros t) (querySecurity options) ∧
      s = conjecturedSecurity options b t c := by
  simp only [getConjecturedSecurity, Option.bind_eq_bind] at h
  obtain ⟨fsz, hfsz, h⟩ := Option.bind_eq_some.1 h
  obtain ⟨fs, hfs, h⟩ := Option.bind_eq_some.1 h
  obtain ⟨spq, hspq, h⟩ := Option.bind_eq_some.1 h
  obtain ⟨q0, hq0, h⟩ := Option.bind_eq_some.1 h
  obtain rfl := uintFit_eq_some hfsz
  obtain ⟨-, rfl⟩ := uintSub_eq_some.1 hfs
  unfold ilog2 at hspq
  split_ifs at hspq
  obtain rfl := Option.some.inj hspq
  obtain rfl := uintFit_eq_some hq0
  have tail : ∀ q, q = querySecurity options →
      ((uintSub (min (b * options.extensionDegree - trailingZeros t) q) 1).bind fun sec =>
        pure (min sec c)) = some s →
      1 ≤ min (b * options.extensionDegree - trailingZeros t) (querySecurity options) ∧
        s = conjecturedSecurity options b t c := by
    rintro q rfl h
    obtain ⟨sec, hsec, h⟩ := Option.bind_eq_some.1 h
    obtain ⟨h1, rfl⟩ := uintSub_eq_some.1 hsec
    exact ⟨h1, (Option.some.inj h).symm⟩
  split_ifs at h with hf <;> obtain ⟨q, hq, h⟩ := Option.bind_eq_some.1 h
  · refine tail q ?_ h
    unfold querySecurity
    dsimp only
    rw [uintFit_eq_some hq, if_pos (show grindingContributionFloor ≤ _ from hf)]
  · refine tail q ?_ h
    unfold querySecurity
    dsimp only
    rw [← Option.some.inj hq, if_neg hf, Nat.add_zero]

/-! ### More queries and a larger blowup never lower the estimate -/

theorem log2_mono {m n : Nat} (h : m ≤ n) : m.log2 ≤ n.log2 := by
  rcases Nat.eq_zero_or_pos m with rfl | hm
  · rw [Nat.log2_zero]
    exact Nat.zero_le _
  · exact (Nat.le_log2 (by omega)).2 (Nat.le_trans (Nat.log2_self_le (by omega : m ≠ 0)) h)

theorem querySecurity_mono {o o' : ProofOptions} (hg : o'.grindingFactor = o.grindingFactor)
    (hq : o.numQueries ≤ o'.numQueries) (hq' : o'.numQueries < 2 ^ 32)
    (hb : o.blowupFactor ≤ o'.blowupFactor) : querySecurity o ≤ querySecurity o' := by
  have hmul : o.blowupFactor.log2 * (o.numQueries % 2 ^ 32) ≤
      o'.blowupFactor.log2 * (o'.numQueries % 2 ^ 32) := by
    rw [Nat.mod_eq_of_lt (by omega), Nat.mod_eq_of_lt hq']
    exact Nat.mul_le_mul (log2_mono hb) hq
  unfold querySecurity
  dsimp only
  rw [hg]
  generalize o.blowupFactor.log2 * _ = q at *
  generalize o'.blowupFactor.log2 * _ = q' at *
  split_ifs <;> omega

/-- Over options that differ only in more queries (below `2^32`, where `as u32` keeps them)
and a larger blowup factor, two estimates that return are the formula's, they are ordered,
and neither exceeds the collision resistance. -/
theorem getConjecturedSecurity_mono (o o' : ProofOptions) (b t c s s' : Nat)
    (hd : o'.extensionDegree = o.extensionDegree) (hg : o'.grindingFactor = o.grindingFactor)
    (hq : o.numQueries ≤ o'.numQueries) (hq' : o'.numQueries < 2 ^ 32)
    (hb : o.blowupFactor ≤ o'.blowupFactor)
    (h : getConjecturedSecurity o b t c = some s) (h' : getConjecturedSecurity o' b t c = some s') :
    s = conjecturedSecurity o b t c ∧ s' = conjecturedSecurity o' b t c ∧ s ≤ s' ∧ s' ≤ c := by
  obtain ⟨-, rfl⟩ := getConjecturedSecurity_eq_some h
  obtain ⟨-, rfl⟩ := getConjecturedSecurity_eq_some h'
  have hmono := querySecurity_mono hg hq hq' hb
  refine ⟨rfl, rfl, ?_⟩
  unfold conjecturedSecurity
  rw [hd]
  generalize b * o.extensionDegree = fsz
  omega

theorem getConjecturedSecurity_mono_sample :
    getConjecturedSecurity ⟨2, 2 ^ 3, 27, 16⟩ 64 (2 ^ 20) 128 = some 96 ∧
      getConjecturedSecurity ⟨2, 2 ^ 4, 40, 16⟩ 64 (2 ^ 20) 128 = some 107 ∧
      96 = conjecturedSecurity ⟨2, 2 ^ 3, 27, 16⟩ 64 (2 ^ 20) 128 ∧
      107 = conjecturedSecurity ⟨2, 2 ^ 4, 40, 16⟩ 64 (2 ^ 20) 128 ∧ 96 ≤ 107 ∧ 107 ≤ 128 :=
  have h : getConjecturedSecurity ⟨2, 2 ^ 3, 27, 16⟩ 64 (2 ^ 20) 128 = some 96 := by
    simp only [getConjecturedSecurity, ilog2, Nat.log2_two_pow, if_neg (by decide : 2 ^ 3 ≠ 0)]
    decide
  have h' : getConjecturedSecurity ⟨2, 2 ^ 4, 40, 16⟩ 64 (2 ^ 20) 128 = some 107 := by
    simp only [getConjecturedSecurity, ilog2, Nat.log2_two_pow, if_neg (by decide : 2 ^ 4 ≠ 0)]
    decide
  ⟨h, h', getConjecturedSecurity_mono ⟨2, 2 ^ 3, 27, 16⟩ ⟨2, 2 ^ 4, 40, 16⟩ 64 (2 ^ 20) 128 96 107 rfl rfl (by decide) (by decide)
    (by decide) h h'⟩

end Miden.Air
