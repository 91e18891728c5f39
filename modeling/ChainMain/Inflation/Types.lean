import ChainMain.Foundations.Decimal
import ChainMain.Foundations.Outcomes
import ChainMain.Foundations.Texts

/-!
# The types of `x/inflation`

The parameters of the module and its genesis state with the checks the Go types carry, and what the
module uses of the SDK: the bech32 text of addresses, the default inflation of `x/mint`, and the
approximate root of a decimal.

A supply is an integer, a rate a decimal. A height is a `uint64` where the module keeps it.
-/

set_option autoImplicit false

namespace ChainMain.Inflation

open Foundations Decimal Outcomes Texts

abbrev AccAddress := List UInt8

/-! ### Errors -/

/-- A value an error text is formatted with. -/
inductive Arg
  | text (t : Text)
  | nat (n : ℕ)
  | int (n : ℤ)
  | dec (d : Dec)
deriving DecidableEq, Repr

/-- An error: one with a text, that of decoding an address, that of approximating a root, the one
the authority check registers, one that wraps another, or a panic with an error. -/
inductive Err
  | message (text : String) (args : List Arg)
  | bech32 (address : Text)
  | root (text : Text)
  | invalidSigner (text : String) (args : List Arg)
  | wrapped (text : String) (args : List Arg) (cause : Err)
  | panic (cause : Err)
deriving DecidableEq, Repr

/-! ### The SDK -/

/-- What the module uses of the SDK, for a type of minters and one of the parameters of `x/mint`. -/
structure Sdk (Minter MintParams : Type) where
  /-- `sdk.AccAddressFromBech32`, without the error. -/
  fromBech32 : Text → Option AccAddress
  /-- `Params.BlocksPerYear`. -/
  blocksPerYear : MintParams → UInt64
  /-- `minttypes.DefaultInflationCalculationFn`. -/
  defaultInflationCalculationFn : Minter → MintParams → Dec → Dec
  /-- `LegacyDec.ApproxRoot`, with the text of the error. -/
  approxRoot : Dec → UInt64 → Except Text Dec

variable {Minter MintParams : Type} (S : Sdk Minter MintParams)

/-! ### Parameters -/

structure Params where
  maxSupply : ℤ
  burnedAddresses : List Text
  decayRate : Dec
deriving DecidableEq, Repr

def defaultParams : Params := ⟨0, [], 0⟩

def validateMaxSupply (maxSupply : ℤ) : Except Err Unit :=
  ensure (!(maxSupply < 0)) (.message "max supply cannot be negative: %s" [.int maxSupply])

/-- The loop of `validateBurnedAddresses`: the index, the addresses met so far, those to come. -/
def validateBurnedFrom : ℕ → List Text → List Text → Except Err Unit
  | _, _, [] => return ()
  | i, met, addr :: rest => do
    let _ ← expect (S.fromBech32 addr)
      (.wrapped "invalid burned address at index %d: %s, error: %w" [.nat i, .text addr]
        (.bech32 addr))
    ensure (!met.contains addr) (.message "duplicate burned address found: %s" [.text addr])
    validateBurnedFrom (i + 1) (addr :: met) rest

def validateBurnedAddresses (burnedAddresses : List Text) : Except Err Unit :=
  validateBurnedFrom S 0 [] burnedAddresses

def validateDecayRate (v : Dec) : Except Err Unit := do
  ensure (!v.isNegative)
    (.message "decay rate cannot be negative (must be between 0 and 1 inclusive, got: %s)" [.dec v])
  ensure (!(1 < v))
    (.message "decay rate too large (must be between 0 and 1 inclusive, got: %s)" [.dec v])

def Params.validate (p : Params) : Except Err Unit := do
  validateMaxSupply p.maxSupply
  validateBurnedAddresses S p.burnedAddresses
  validateDecayRate p.decayRate

/-! ### Genesis -/

structure GenesisState where
  params : Params
  decayEpochStart : UInt64
deriving DecidableEq, Repr

def defaultGenesis : GenesisState := ⟨defaultParams, 0⟩

def GenesisState.validate (gs : GenesisState) : Except Err Unit := do
  gs.params.validate S
  ensure (!(!gs.params.decayRate.isPositive && gs.decayEpochStart != 0))
    (.message "decay_epoch_start must be zero when decay is disabled" [])

/-! ### What the checks accept -/

theorem validateDecayRate_eq_ok {v : Dec} : validateDecayRate v = .ok () ↔ 0 ≤ v ∧ v ≤ 1 := by
  unfold validateDecayRate
  rw [check_eq_ok]
  simp [ensure_eq_ok, Dec.isNegative, Dec.le_iff, Dec.lt_iff]

theorem validateMaxSupply_eq_ok {n : ℤ} : validateMaxSupply n = .ok () ↔ 0 ≤ n := by
  simp [validateMaxSupply, ensure_eq_ok]

theorem validateBurnedFrom_eq_ok {i : ℕ} {met addresses : List Text} :
    validateBurnedFrom S i met addresses = .ok () ↔
      (∀ addr ∈ addresses, (S.fromBech32 addr).isSome) ∧ addresses.Nodup ∧
        ∀ addr ∈ addresses, addr ∉ met := by
  induction addresses generalizing i met with
  | nil => simp [validateBurnedFrom, pure, Except.pure]
  | cons addr rest ih =>
    rw [validateBurnedFrom, bind_eq_ok, List.forall_mem_cons, List.forall_mem_cons, List.nodup_cons]
    constructor
    · rintro ⟨a, ha, hrest⟩
      obtain ⟨hnew, hrest⟩ := check_eq_ok.mp hrest
      obtain ⟨hsome, hnodup, hmet⟩ := ih.mp hrest
      have hmem : addr ∉ rest := fun h ↦ hmet addr h List.mem_cons_self
      refine ⟨⟨?_, hsome⟩, ⟨hmem, hnodup⟩, ?_, fun b hb h ↦ hmet b hb (List.mem_cons_of_mem _ h)⟩
      · rw [expect_eq_ok.mp ha]
        rfl
      · simpa [ensure_eq_ok] using hnew
    · rintro ⟨⟨hfirst, hsome⟩, ⟨hmem, hnodup⟩, hnew, hmet⟩
      obtain ⟨a, ha⟩ := Option.isSome_iff_exists.mp hfirst
      refine ⟨a, expect_eq_ok.mpr ha, check_eq_ok.mpr ⟨?_, ih.mpr ⟨hsome, hnodup, fun b hb h ↦ ?_⟩⟩⟩
      · simpa [ensure_eq_ok] using hnew
      · rcases List.mem_cons.mp h with rfl | h
        · exact hmem hb
        · exact hmet b hb h

/-- The addresses that are accepted are addresses, and no text stands twice. -/
theorem validateBurnedAddresses_eq_ok {addresses : List Text} :
    validateBurnedAddresses S addresses = .ok () ↔
      (∀ addr ∈ addresses, (S.fromBech32 addr).isSome) ∧ addresses.Nodup := by
  rw [validateBurnedAddresses, validateBurnedFrom_eq_ok]
  simp

theorem Params.validate_eq_ok {p : Params} :
    p.validate S = .ok () ↔ 0 ≤ p.maxSupply ∧
      ((∀ addr ∈ p.burnedAddresses, (S.fromBech32 addr).isSome) ∧ p.burnedAddresses.Nodup) ∧
      0 ≤ p.decayRate ∧ p.decayRate ≤ 1 := by
  unfold Params.validate
  rw [check_eq_ok, check_eq_ok, validateMaxSupply_eq_ok, validateBurnedAddresses_eq_ok,
    validateDecayRate_eq_ok]

theorem GenesisState.validate_eq_ok {gs : GenesisState} :
    gs.validate S = .ok () ↔
      gs.params.validate S = .ok () ∧ (0 < gs.params.decayRate ∨ gs.decayEpochStart = 0) := by
  unfold GenesisState.validate
  rw [check_eq_ok, ensure_eq_ok]
  simp [Dec.isPositive, Dec.lt_iff, or_iff_not_imp_left]

end ChainMain.Inflation
