import ChainMain.Inflation.ReferenceSdk

/-!
# The supply cap

`BeginBlocker` takes the balances of the burned addresses off the supply and halts the chain if what
is left exceeds the cap. The parameters are accepted if no text stands twice among the burned
addresses, but an account may have several texts, and its balance is then taken off once for each of
them. The supply that is compared with the cap is the right one if and only if every account that is
named more than once is empty (`supply_cap_iff`).
-/

set_option autoImplicit false

namespace ChainMain.Inflation

open Foundations Decimal Outcomes Texts

variable {Minter MintParams : Type} {S : Sdk Minter MintParams} {bank : Bank} {params : Params}
  {s : Store}

/-- What `x/bank` keeps: no balance is negative, and different accounts do not have more than the
supply together. -/
structure Bank.Sound (bank : Bank) : Prop where
  nonneg : ∀ account denom, 0 ≤ bank.getBalance account denom
  le_supply : ∀ (accounts : List AccAddress) (denom : String), accounts.Nodup →
    (accounts.map fun account ↦ bank.getBalance account denom).sum ≤ bank.getSupply denom

/-- The accounts the burned addresses denote, as often as they are named. -/
def burnedAccounts (S : Sdk Minter MintParams) (params : Params) : List AccAddress :=
  params.burnedAddresses.filterMap S.fromBech32

/-- The balances of accounts in the bond denomination, added up. -/
def Bank.total (bank : Bank) (accounts : List AccAddress) : ℤ :=
  (accounts.map fun account ↦ bank.getBalance account bank.bondDenom).sum

/-- The supply without the balances of the burned accounts, each counted once. -/
def circulatingOnce (S : Sdk Minter MintParams) (bank : Bank) (params : Params) : ℤ :=
  bank.getSupply bank.bondDenom - bank.total (burnedAccounts S params).dedup

/-- `BeginBlocker` counts an account as often as it is named. -/
theorem circulating_eq (h : ∀ addr ∈ params.burnedAddresses, (S.fromBech32 addr).isSome) :
    circulating S bank params =
      .ok (bank.getSupply bank.bondDenom - bank.total (burnedAccounts S params)) := by
  have hloop : ∀ (addresses : List Text) (burned : ℤ),
      (∀ addr ∈ addresses, (S.fromBech32 addr).isSome) →
      addresses.foldlM (fun burned ba ↦ do
        let balance ← (getAddressBalance S bank ba bank.bondDenom).mapError fun e ↦
          .panic (.wrapped "could not get %s balance: %s" [.text ba] e)
        return burned + balance) burned =
          (.ok (burned + bank.total (addresses.filterMap S.fromBech32)) : Except Err ℤ) := by
    intro addresses
    induction addresses with
    | nil => intro burned _; simp [Bank.total, pure, Except.pure]
    | cons addr rest ih =>
      intro burned hall
      obtain ⟨hfirst, hrest⟩ := List.forall_mem_cons.mp hall
      obtain ⟨account, haccount⟩ := Option.isSome_iff_exists.mp hfirst
      have hbalance : getAddressBalance S bank addr bank.bondDenom =
          .ok (bank.getBalance account bank.bondDenom) := by
        rw [getAddressBalance, haccount]
        rfl
      rw [List.foldlM_cons, hbalance]
      refine (ih _ hrest).trans ?_
      rw [List.filterMap_cons_some haccount, Bank.total, Bank.total, List.map_cons,
        List.sum_cons, add_assoc]
  unfold circulating
  dsimp only [getSupplyAndDenom]
  rw [hloop _ 0 h, zero_add]
  rfl

/-- Counting an item more than once makes a difference unless it counts for nothing. -/
theorem sum_map_dedup_iff {α : Type} [DecidableEq α] {f : α → ℤ} (hf : ∀ a, 0 ≤ f a)
    (items : List α) :
    (items.map f).sum = (items.dedup.map f).sum ↔ ∀ a, items.Duplicate a → f a = 0 := by
  have hall : (items.map f).sum = ∑ a ∈ items.toFinset, (items.count a : ℤ) * f a := by
    rw [Finset.sum_list_map_count]
    simp only [nsmul_eq_mul]
  have honce : (items.dedup.map f).sum = ∑ a ∈ items.toFinset, f a := by
    rw [← List.sum_toFinset f items.nodup_dedup]
    exact Finset.sum_congr (Finset.ext fun a ↦ by simp) fun _ _ ↦ rfl
  have hextra : (items.map f).sum - (items.dedup.map f).sum =
      ∑ a ∈ items.toFinset, ((items.count a : ℤ) - 1) * f a := by
    rw [hall, honce, ← Finset.sum_sub_distrib]
    exact Finset.sum_congr rfl fun a _ ↦ by ring
  have hpos : ∀ a ∈ items.toFinset, 1 ≤ (items.count a : ℤ) := by
    intro a hmem
    exact_mod_cast List.count_pos_iff.mpr (List.mem_toFinset.mp hmem)
  have hnonneg : ∀ a ∈ items.toFinset, 0 ≤ ((items.count a : ℤ) - 1) * f a :=
    fun a hmem ↦ mul_nonneg (sub_nonneg.mpr (hpos a hmem)) (hf a)
  rw [← sub_eq_zero, hextra, Finset.sum_eq_zero_iff_of_nonneg hnonneg]
  constructor
  · intro hzero a hduplicate
    have hcount := List.duplicate_iff_two_le_count.mp hduplicate
    refine (mul_eq_zero.mp (hzero a (List.mem_toFinset.mpr hduplicate.mem))).resolve_left ?_
    omega
  · intro hempty a hmem
    rcases eq_or_lt_of_le (hpos a hmem) with hone | hmany
    · rw [← hone, sub_self, zero_mul]
    · have hcount : 2 ≤ items.count a := by exact_mod_cast hmany
      rw [hempty a (List.duplicate_iff_two_le_count.mpr hcount), mul_zero]

/-- With accepted parameters, the chain halts if the supply that is left exceeds the cap. -/
theorem beginBlocker_halts_iff {supply : ℤ} (hparams : s.params = some params)
    (hsupply : circulating S bank params = .ok supply) :
    (∃ e, beginBlocker S bank s = .error e) ↔ 0 < params.maxSupply ∧ params.maxSupply < supply := by
  have hget : getParams s = .ok params := expect_eq_ok.mpr hparams
  unfold beginBlocker
  rw [hget]
  dsimp only [Except.mapError, ok_bind]
  rw [hsupply, ok_bind, ensure]
  by_cases hcap : 0 < params.maxSupply ∧ params.maxSupply < supply
  · simp [hcap.1, hcap.2]
  · have hkept : (!(decide (0 < params.maxSupply) && decide (params.maxSupply < supply))) =
        true := by
      simpa [imp_iff_not_or] using hcap
    rw [if_pos hkept]
    refine iff_of_false ?_ hcap
    rintro ⟨e, he⟩
    cases he

/-- With parameters that are accepted, `BeginBlocker` takes every burned account off the supply once
if and only if the accounts named more than once are empty. The supply that is left then is not
negative, and the chain halts exactly if it exceeds a positive cap. -/
theorem supply_cap_iff (hparams : s.params = some params) (hvalid : params.validate S = .ok ())
    (hbank : bank.Sound) :
    (circulating S bank params = .ok (circulatingOnce S bank params) ↔
      ∀ account, (burnedAccounts S params).Duplicate account →
        bank.getBalance account bank.bondDenom = 0) ∧
    ((∀ account, (burnedAccounts S params).Duplicate account →
        bank.getBalance account bank.bondDenom = 0) →
      0 ≤ circulatingOnce S bank params ∧
      ((∃ e, beginBlocker S bank s = .error e) ↔
        0 < params.maxSupply ∧ params.maxSupply < circulatingOnce S bank params)) := by
  have hcirculating : circulating S bank params =
      .ok (bank.getSupply bank.bondDenom - bank.total (burnedAccounts S params)) :=
    circulating_eq ((Params.validate_eq_ok S).mp hvalid).2.1.1
  have hiff : circulating S bank params = .ok (circulatingOnce S bank params) ↔
      ∀ account, (burnedAccounts S params).Duplicate account →
        bank.getBalance account bank.bondDenom = 0 := by
    rw [hcirculating, Except.ok.injEq, circulatingOnce, sub_right_inj]
    exact sum_map_dedup_iff (fun account ↦ hbank.nonneg account bank.bondDenom) _
  refine ⟨hiff, fun hempty ↦ ⟨?_, beginBlocker_halts_iff hparams (hiff.mpr hempty)⟩⟩
  exact sub_nonneg.mpr (hbank.le_supply _ _ (List.nodup_dedup _))

section Histories

open Reference

/-- The account `AA` has 60 of a supply of 100. -/
def burner : Bank where
  bondDenom := "basecro"
  getSupply _ := 100
  getBalance account _ := if account = [0xAA] then 60 else 0

theorem sound_burner : burner.Sound := by
  refine ⟨fun account denom ↦ ?_, fun accounts denom hnodup ↦ ?_⟩
  · dsimp only [burner]
    split_ifs <;> decide
  · have hsum : (accounts.map fun account ↦ burner.getBalance account denom).sum =
        60 * (accounts.count [0xAA] : ℤ) := by
      dsimp only [burner]
      induction accounts with
      | nil => rfl
      | cons account rest ih =>
        rw [List.map_cons, List.sum_cons, ih hnodup.of_cons, List.count_cons]
        by_cases haccount : account = [0xAA]
        · simp [haccount]
          ring
        · simp [haccount]
    have hcount := List.nodup_iff_count_le_one.mp hnodup [0xAA]
    rw [hsum]
    change 60 * (accounts.count [0xAA] : ℤ) ≤ 100
    omega

/-- A cap of 30, with the account named once. -/
def namedOnce : Params := ⟨30, ["aa".toList], 0⟩

/-- A cap of 30, with the account named by two texts. -/
def namedTwice : Params := ⟨30, ["aa".toList, "AA".toList], 0⟩

/-- The account is named once: the 40 that are left exceed the cap. -/
theorem supply_cap_namedOnce : ∃ e, beginBlocker sdk burner ⟨some namedOnce, none⟩ = .error e := by
  have hstored : (⟨some namedOnce, none⟩ : Store).params = some namedOnce := rfl
  have hvalid : namedOnce.validate sdk = .ok () := by decide +kernel
  have hcap := (supply_cap_iff hstored hvalid sound_burner).2
  have hnodup : (burnedAccounts sdk namedOnce).Nodup := by decide +kernel
  have hempty : ∀ account, (burnedAccounts sdk namedOnce).Duplicate account →
      burner.getBalance account burner.bondDenom = 0 :=
    fun account hduplicate ↦ absurd hnodup hduplicate.not_nodup
  exact (hcap hempty).2.mpr (by decide +kernel)

/-- The account is named twice: 120 are taken off the supply, and the chain does not halt. -/
theorem supply_cap_lifted :
    namedTwice.validate sdk = .ok () ∧ burner.Sound ∧
      circulating sdk burner namedTwice = .ok (-20) ∧
      circulatingOnce sdk burner namedTwice = 40 ∧
      beginBlocker sdk burner ⟨some namedTwice, none⟩ = .ok () :=
  ⟨by decide +kernel, sound_burner, by decide +kernel, by decide +kernel, by decide +kernel⟩

end Histories

end ChainMain.Inflation
