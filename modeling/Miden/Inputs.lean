import Mathlib.Data.List.Forall2
import Miden.Felt
import Miden.Uint

/-!
# Program inputs from strings (miden/src/lib.rs:96-128)

`convert_stackinputs` reads the initial stack and the advice tape of a program from two
strings of comma-separated decimal `u64`s. A non-empty string is split on `,`
(`str::split`) and each piece is parsed with `str::parse::<u64>` and unwrapped, so a piece
that is not a `u64` panics (`none` here); an empty string gives no values. The stack values
become field elements with `Felt::new` and go to `StackInputs::new`. The advice values go to
`AdviceInputs::with_stack_values`, whose result is unwrapped: it converts them with
`Felt::try_from`, so an advice value of the modulus or more panics.

A string is its list of characters and `str::split(',')` is `List.splitOn`. `u64::from_str`
is core's `from_str_radix` at radix 10: an empty string or a lone sign is an error, a leading
`+` is skipped, and the digits are accumulated with checked `u64` arithmetic.

A piece parses exactly when it is a literal: an optional `+`, then at least one digit, of
value below `2^64` (`parseU64_eq_some_iff`). A string of values is accepted exactly when it
joins literals with commas (`parseInputs_eq_some_iff`), and values written in decimal come
back unchanged.
-/

namespace Miden

/-! ### The parser -/

/-- `char::to_digit(10)`: the code point less that of `'0'`, wrapping in `u32`, when it is
below ten. -/
def toDigit (c : Char) : Option Nat :=
  let digit := (c.toNat + 2 ^ 32 - '0'.toNat) % 2 ^ 32
  if digit < 10 then some digit else none

/-- The digit loop of `u64::from_str_radix(src, 10)`: for each character,
`result = result.checked_mul(10)?.checked_add(digit)?`. -/
def parseDigits : List Char → Nat → Option Nat
  | [], result => some result
  | c :: cs, result => do
    let x ← toDigit c
    let mul ← uintFit 64 (result * 10)
    let result ← uintFit 64 (mul + x)
    parseDigits cs result

/-- `<u64 as FromStr>::from_str`: an empty string and a lone sign are errors and a leading
`+` is skipped; for an unsigned type a `-` is a non-digit. -/
def parseU64 : List Char → Option Nat
  | [] => none
  | c :: rest =>
    if (c = '+' ∨ c = '-') ∧ rest = [] then none
    else parseDigits (if c = '+' then rest else c :: rest) 0

/-- One list of `convert_stackinputs`: no values for an empty string, else each piece
between commas parsed, unwrapped and converted by `f`. -/
def parseInputs {β : Type} (f : Nat → β) (s : List Char) : Option (List β) :=
  if s.length ≠ 0 then (s.splitOn ',').mapM fun p => (parseU64 p).map f else some []

/-- `InputError` (core/src/errors.rs:7), the variant `with_stack_values` returns; its
description text is written outside the sources. -/
inductive InputError where
  | notFieldElement (value : Nat)
  deriving DecidableEq, Repr

/-- `AdviceInputs::with_stack_values` (outside the sources): each value becomes a field
element by `Felt::try_from`, which rejects a value that is not below the modulus. -/
def withStackValues (values : List Nat) : Except InputError (List Felt) :=
  values.mapM fun v => if v < modulus then .ok (Felt.new v) else .error (.notFieldElement v)

/-- `NormalInput`: the stack inputs and the advice stack of the host. -/
structure NormalInput where
  stackInputs : List Felt
  adviceStack : List Felt

/-- `convert_stackinputs` (lib.rs:96). -/
def convertStackinputs (stackInit adviceTape : List Char) : Option NormalInput := do
  let stackInita ← parseInputs Felt.new stackInit
  let adviceTapea ← parseInputs id adviceTape
  let adviceInputs ← (withStackValues adviceTapea).toOption
  pure ⟨stackInita, adviceInputs⟩

/-! ### Literals -/

/-- One step of the value of a digit string, most significant digit first. -/
def digitStep (r : Nat) (c : Char) : Nat := r * 10 + (c.toNat - '0'.toNat)

/-- The value of a digit string. -/
def digitsValue (ds : List Char) : Nat := ds.foldl digitStep 0

/-- A `u64` literal of value `v`: an optional `+`, then at least one ASCII digit, with the
value below `2^64`. -/
def Literal (p : List Char) (v : Nat) : Prop :=
  ∃ ds, ds ≠ [] ∧ (∀ c ∈ ds, c.isDigit) ∧ (p = ds ∨ p = '+' :: ds) ∧ v = digitsValue ds ∧
    v < 2 ^ 64

theorem isDigit_iff (c : Char) : c.isDigit ↔ 48 ≤ c.toNat ∧ c.toNat ≤ 57 := by
  simp only [Char.isDigit, Bool.and_eq_true, decide_eq_true_eq]
  exact Iff.rfl

theorem toDigit_eq_some_iff (c : Char) (d : Nat) :
    toDigit c = some d ↔ c.isDigit ∧ d = c.toNat - '0'.toNat := by
  have hc : c.toNat < 2 ^ 32 := c.val.val.isLt
  have h0 : '0'.toNat = 48 := rfl
  rw [isDigit_iff, toDigit, h0]
  simp only [Nat.reducePow] at hc ⊢
  split_ifs <;> simp only [Option.some.injEq, reduceCtorEq, false_iff, not_and] <;> omega

theorem le_foldl_digitStep (cs : List Char) (r : Nat) : r ≤ cs.foldl digitStep r := by
  induction cs generalizing r with
  | nil => exact le_rfl
  | cons c cs ih => exact (by unfold digitStep; omega : r ≤ digitStep r c).trans (ih _)

theorem parseDigits_eq_some_iff (cs : List Char) {r : Nat} (hr : r < 2 ^ 64) (v : Nat) :
    parseDigits cs r = some v ↔ (∀ c ∈ cs, c.isDigit) ∧ v = cs.foldl digitStep r ∧ v < 2 ^ 64 := by
  induction cs generalizing r with
  | nil =>
    simp only [parseDigits, Option.some.injEq, List.not_mem_nil, false_implies, implies_true,
      List.foldl_nil, true_and]
    exact ⟨fun h => ⟨h.symm, h ▸ hr⟩, fun h => h.1.symm⟩
  | cons c cs ih =>
    simp only [List.forall_mem_cons, List.foldl_cons]
    cases hd : toDigit c with
    | none =>
      have hc : ¬ c.isDigit := fun h => by simp [(toDigit_eq_some_iff c _).2 ⟨h, rfl⟩] at hd
      simp [parseDigits, hd, hc]
    | some x =>
      obtain ⟨hc, rfl⟩ := (toDigit_eq_some_iff c x).1 hd
      have hge := le_foldl_digitStep cs (digitStep r c)
      simp only [parseDigits, hd, Option.bind_eq_bind, Option.some_bind, hc, true_and]
      by_cases hlt : digitStep r c < 2 ^ 64
      · rw [uintFit_of_lt (by unfold digitStep at hlt; omega), Option.some_bind,
          uintFit_of_lt (show r * 10 + (c.toNat - '0'.toNat) < 2 ^ 64 from hlt), Option.some_bind]
        exact ih hlt
      · have hno : ¬ (v = cs.foldl digitStep (digitStep r c) ∧ v < 2 ^ 64) := by omega
        simp only [hno, and_false, iff_false]
        by_cases hm : r * 10 < 2 ^ 64
        · rw [uintFit_of_lt hm, Option.some_bind,
            uintFit_of_le (by unfold digitStep at hlt; omega), Option.none_bind]
          exact nofun
        · rw [uintFit_of_le (by omega), Option.none_bind]
          exact nofun

theorem parseU64_eq_some_iff (p : List Char) (v : Nat) : parseU64 p = some v ↔ Literal p v := by
  have hplus : ¬ '+'.isDigit := by decide
  have hminus : ¬ '-'.isDigit := by decide
  cases p with
  | nil =>
    refine ⟨nofun, ?_⟩
    rintro ⟨ds, hne, -, rfl | h, -⟩
    · exact (hne rfl).elim
    · cases h
  | cons c rest =>
    simp only [parseU64]
    split_ifs with hlone hc
    · refine ⟨nofun, ?_⟩
      rintro ⟨ds, hne, hd, hp | hp, -⟩
      · subst hp
        rcases hlone with ⟨rfl | rfl, rfl⟩
        · exact hplus (hd _ (List.mem_singleton_self _))
        · exact hminus (hd _ (List.mem_singleton_self _))
      · exact hne ((List.cons.inj hp).2.symm.trans hlone.2)
    · subst hc
      have hne : rest ≠ [] := fun h => hlone ⟨.inl rfl, h⟩
      rw [parseDigits_eq_some_iff rest (by decide) v]
      constructor
      · rintro ⟨hd, hv, hlt⟩
        exact ⟨rest, hne, hd, .inr rfl, hv, hlt⟩
      · rintro ⟨ds, -, hd, hp | hp, hv, hlt⟩
        · exact absurd (hd _ (hp ▸ List.mem_cons_self _ _)) hplus
        · obtain rfl := (List.cons.inj hp).2
          exact ⟨hd, hv, hlt⟩
    · rw [parseDigits_eq_some_iff _ (by decide) v]
      constructor
      · rintro ⟨hd, hv, hlt⟩
        exact ⟨c :: rest, List.cons_ne_nil _ _, hd, .inl rfl, hv, hlt⟩
      · rintro ⟨ds, -, hd, hp | hp, hv, hlt⟩
        · subst hp
          exact ⟨hd, hv, hlt⟩
        · exact absurd (List.cons.inj hp).1 hc

example : parseU64 ['+', '0', '7'] = some 7 ∧ parseU64 ['-', '7'] = none := by decide

/-! ### Lists of values -/

theorem mapM_eq_some_iff {β γ : Type} (g : β → Option γ) :
    ∀ (l : List β) (vs : List γ), l.mapM g = some vs ↔ List.Forall₂ (fun a v => g a = some v) l vs
  | [], vs => by
    rw [List.mapM_nil, List.forall₂_nil_left_iff]
    exact ⟨fun h => (Option.some.inj h).symm, fun h => h ▸ rfl⟩
  | a :: l, vs => by
    simp only [List.mapM_cons, Option.bind_eq_bind, Option.bind_eq_some, mapM_eq_some_iff g l]
    cases vs with
    | nil => simp [Option.pure_def]
    | cons v vs => simp [Option.pure_def, List.forall₂_cons]

theorem mapM_map_comp {β γ δ : Type} (g : β → Option γ) (f : γ → δ) :
    ∀ l : List β, (l.mapM fun a => (g a).map f) = (l.mapM g).map (List.map f)
  | [] => rfl
  | a :: l => by
    rw [List.mapM_cons, List.mapM_cons, mapM_map_comp g f l]
    rcases g a with _ | x <;> rcases l.mapM g with _ | xs <;> rfl

theorem comma_not_mem_of_literal {p : List Char} {v : Nat} (h : Literal p v) : ',' ∉ p := by
  have hcomma : ¬ ','.isDigit := by decide
  obtain ⟨ds, -, hd, rfl | rfl, -⟩ := h
  · exact fun hc => hcomma (hd _ hc)
  · rintro (_ | ⟨_, hc⟩)
    exact hcomma (hd _ hc)

theorem literal_ne_nil {p : List Char} {v : Nat} (h : Literal p v) : p ≠ [] := by
  obtain ⟨ds, hne, -, rfl | rfl, -⟩ := h
  · exact hne
  · exact List.cons_ne_nil _ _

theorem splitOn_intercalate_literals {ps : List (List Char)} {xs : List Nat}
    (h : List.Forall₂ Literal ps xs) (hne : ps ≠ []) : ([','].intercalate ps).splitOn ',' = ps :=
  List.splitOn_intercalate ps ','
    ((List.forall₂_and_left ps xs).1 (h.imp fun _ _ hp => ⟨comma_not_mem_of_literal hp, hp⟩)).1 hne

theorem parseInputs_eq_some_iff {β : Type} (f : Nat → β) (s : List Char) (vs : List β) :
    parseInputs f s = some vs ↔
      ∃ ps xs, s = [','].intercalate ps ∧ List.Forall₂ Literal ps xs ∧ vs = xs.map f := by
  have hpieces : ∀ ps : List (List Char), (ps.mapM fun p => (parseU64 p).map f) = some vs ↔
      ∃ xs, List.Forall₂ Literal ps xs ∧ vs = xs.map f := fun ps => by
    rw [mapM_map_comp, Option.map_eq_some']
    simp only [mapM_eq_some_iff, parseU64_eq_some_iff, eq_comm]
  unfold parseInputs
  split_ifs with hs
  · rw [hpieces]
    constructor
    · rintro ⟨xs, hxs, rfl⟩
      exact ⟨_, xs, (List.intercalate_splitOn s ',').symm, hxs, rfl⟩
    · rintro ⟨ps, xs, rfl, hxs, rfl⟩
      have hne : ps ≠ [] := by rintro rfl; exact hs rfl
      rw [splitOn_intercalate_literals hxs hne]
      exact ⟨xs, hxs, rfl⟩
  · obtain rfl := List.length_eq_zero.1 (not_not.1 hs)
    refine ⟨fun h => ⟨[], [], rfl, .nil, (Option.some.inj h).symm⟩, ?_⟩
    rintro ⟨ps, xs, hnil, hxs, rfl⟩
    cases hxs with
    | nil => rfl
    | @cons p x ps xs hp hxs =>
      have hsplit := splitOn_intercalate_literals (.cons hp hxs) (List.cons_ne_nil _ _)
      rw [← hnil, List.splitOn_nil] at hsplit
      exact absurd (List.cons.inj hsplit).1.symm (literal_ne_nil hp)

example : parseInputs id ['1', ',', ',', '2'] = none := by decide

theorem withStackValues_cons (v : Nat) (vs : List Nat) :
    withStackValues (v :: vs) = if v < modulus then (withStackValues vs).map (Felt.new v :: ·)
      else .error (.notFieldElement v) := by
  unfold withStackValues
  rw [List.mapM_cons]
  split_ifs <;> rfl

theorem withStackValues_toOption : ∀ vs : List Nat,
    (withStackValues vs).toOption = if ∀ v ∈ vs, v < modulus then some (vs.map Felt.new) else none
  | [] => rfl
  | v :: vs => by
    have ih := withStackValues_toOption vs
    rw [withStackValues_cons]
    simp only [List.forall_mem_cons]
    by_cases hv : v < modulus
    · rw [if_pos hv]
      revert ih
      cases withStackValues vs with
      | error e =>
        intro ih
        have hall : ¬ ∀ w ∈ vs, w < modulus := fun h => by rw [if_pos h] at ih; cases ih
        rw [if_neg fun h => hall h.2]
        rfl
      | ok fs =>
        intro ih
        split_ifs at ih with hall <;> cases ih
        rw [if_pos ⟨hv, hall⟩]
        rfl
    · rw [if_neg hv, if_neg fun h => hv h.1]
      rfl

/-- `convert_stackinputs` does not panic exactly when each string joins `u64` literals with
commas and every advice value is below the modulus; it then gives the stack values as field
elements and the advice values as the advice stack, in order. -/
theorem convertStackinputs_eq_some_iff (stackInit adviceTape : List Char) (inp : NormalInput) :
    convertStackinputs stackInit adviceTape = some inp ↔
      ∃ ps xs qs ys, stackInit = [','].intercalate ps ∧ List.Forall₂ Literal ps xs ∧
        adviceTape = [','].intercalate qs ∧ List.Forall₂ Literal qs ys ∧
        (∀ y ∈ ys, y < modulus) ∧ inp = ⟨xs.map Felt.new, ys.map Felt.new⟩ := by
  simp only [convertStackinputs, Option.bind_eq_bind, Option.bind_eq_some, Option.pure_def,
    Option.some.injEq, parseInputs_eq_some_iff, List.map_id, withStackValues_toOption]
  constructor
  · rintro ⟨_, ⟨ps, xs, rfl, hxs, rfl⟩, _, ⟨qs, ys, rfl, hys, rfl⟩, fs, hfs, rfl⟩
    split_ifs at hfs with hy
    obtain rfl := Option.some.inj hfs
    exact ⟨ps, xs, qs, _, rfl, hxs, rfl, hys, hy, rfl⟩
  · rintro ⟨ps, xs, qs, ys, rfl, hxs, rfl, hys, hy, rfl⟩
    exact ⟨_, ⟨ps, xs, rfl, hxs, rfl⟩, _, ⟨qs, ys, rfl, hys, rfl⟩, _, if_pos hy, rfl⟩

/-- The advice value `p - 1` is accepted and `p` panics at the unwrap. -/
example : (convertStackinputs [] "18446744069414584320".toList).isSome = true ∧
    (convertStackinputs [] "18446744069414584321".toList).isNone = true := by
  decide

/-! ### Decimal forms -/

/-- The character of a decimal digit. -/
def digitChar (d : Nat) : Char := Char.ofNat ('0'.toNat + d)

/-- The decimal form of `n`, as `u64`'s `Display` writes it: its digits, most significant
first. -/
def decimal (n : Nat) : List Char :=
  (if h : n < 10 then [] else decimal (n / 10)) ++ [digitChar (n % 10)]
termination_by n
decreasing_by omega

theorem digitChar_spec {d : Nat} (h : d < 10) (r : Nat) :
    (digitChar d).isDigit ∧ digitStep r (digitChar d) = r * 10 + d := by
  have key : ∀ e : Fin 10, (digitChar e).isDigit ∧ (digitChar e).toNat - '0'.toNat = e := by
    decide
  obtain ⟨hd, hv⟩ := key ⟨d, h⟩
  exact ⟨hd, by rw [digitStep, hv]⟩

theorem digitsValue_append_singleton (ds : List Char) (c : Char) :
    digitsValue (ds ++ [c]) = digitStep (digitsValue ds) c := by
  rw [digitsValue, List.foldl_append, List.foldl_cons, List.foldl_nil, digitsValue]

theorem decimal_spec (n : Nat) :
    decimal n ≠ [] ∧ (∀ c ∈ decimal n, c.isDigit) ∧ digitsValue (decimal n) = n := by
  induction n using Nat.strong_induction_on with
  | _ n ih =>
    have hne : decimal n ≠ [] := by
      rw [decimal]
      exact List.append_ne_nil_of_right_ne_nil _ (List.cons_ne_nil _ _)
    rw [decimal]
    split_ifs with h
    · obtain ⟨hd, hv⟩ := digitChar_spec (Nat.mod_lt n (by decide)) 0
      refine ⟨List.cons_ne_nil _ _, by simpa using hd, ?_⟩
      show digitStep 0 _ = n
      rw [hv]
      omega
    · obtain ⟨-, hds, hval⟩ := ih (n / 10) (by omega)
      obtain ⟨hd, hv⟩ := digitChar_spec (Nat.mod_lt n (by decide)) (digitsValue (decimal (n / 10)))
      refine ⟨List.append_ne_nil_of_right_ne_nil _ (List.cons_ne_nil _ _), ?_, ?_⟩
      · intro c hc
        rcases List.mem_append.1 hc with hc | hc
        · exact hds c hc
        · rw [List.mem_singleton.1 hc]
          exact hd
      · rw [digitsValue_append_singleton, hv, hval]
        omega

theorem literal_decimal {n : Nat} (h : n < 2 ^ 64) : Literal (decimal n) n :=
  have ⟨hne, hd, hv⟩ := decimal_spec n
  ⟨decimal n, hne, hd, .inl rfl, hv.symm, h⟩

/-- The comma-separated decimal form of a list of values, as a client writes it. -/
def joinDecimal (xs : List Nat) : List Char := [','].intercalate (xs.map decimal)

theorem parseInputs_joinDecimal {β : Type} (f : Nat → β) {xs : List Nat}
    (h : ∀ x ∈ xs, x < 2 ^ 64) : parseInputs f (joinDecimal xs) = some (xs.map f) :=
  (parseInputs_eq_some_iff f _ _).2 ⟨xs.map decimal, xs, rfl,
    List.forall₂_map_left_iff.2 (List.forall₂_same.2 fun x hx => literal_decimal (h x hx)), rfl⟩

/-- Values written in decimal and joined with commas come back: the stack values below `2^64`
as their residues, the advice values below the modulus unchanged. -/
theorem convertStackinputs_joinDecimal (xs ys : List Nat) (hx : ∀ x ∈ xs, x < 2 ^ 64)
    (hy : ∀ y ∈ ys, y < modulus) :
    convertStackinputs (joinDecimal xs) (joinDecimal ys) = some ⟨xs.map Felt.new, ys.map Felt.new⟩ ∧
      (ys.map Felt.new).map Felt.asInt = ys := by
  have hy64 : ∀ y ∈ ys, y < 2 ^ 64 := fun y h => lt_trans (hy y h) (by decide)
  refine ⟨?_, ?_⟩
  · rw [convertStackinputs, parseInputs_joinDecimal Felt.new hx, parseInputs_joinDecimal id hy64,
      List.map_id]
    simp only [Option.bind_eq_bind, Option.some_bind, withStackValues_toOption, if_pos hy]
    rfl
  · rw [List.map_map]
    exact (List.map_congr_left fun y h => Felt.asInt_new (hy y h)).trans (List.map_id _)

theorem convertStackinputs_joinDecimal_sample :
    (∀ x ∈ [1, 2 ^ 64 - 1], x < 2 ^ 64) ∧ (∀ y ∈ [0, modulus - 1], y < modulus) ∧
      convertStackinputs (joinDecimal [1, 2 ^ 64 - 1]) (joinDecimal [0, modulus - 1]) =
        some ⟨[1, 2 ^ 64 - 1].map Felt.new, [0, modulus - 1].map Felt.new⟩ ∧
      ([0, modulus - 1].map Felt.new).map Felt.asInt = [0, modulus - 1] :=
  ⟨by decide, by decide,
    convertStackinputs_joinDecimal [1, 2 ^ 64 - 1] [0, modulus - 1] (by decide) (by decide)⟩

end Miden
