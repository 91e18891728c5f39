import ChainMain.Inflation.Keeper

/-!
# An SDK for examples

An SDK of simple functions, on which the module can be run: addresses are written in hexadecimal
digits of either case, the minter is the default inflation, the parameters of `x/mint` are the
number of blocks per year, and the root of a decimal that is not zero is one.
-/

set_option autoImplicit false

namespace ChainMain.Inflation.Reference

open Foundations Decimal Outcomes Texts

def sdk : Sdk Dec UInt64 where
  fromBech32 := unhex
  blocksPerYear := id
  defaultInflationCalculationFn minter _ _ := minter
  approxRoot d _ := .ok (if d = 0 then 0 else 1)

def authority : Text := "gov".toList

/-- A tenth. -/
def tenth : Dec := ⟨100000000000000000⟩

def decaying : Params := ⟨0, [], tenth⟩

end ChainMain.Inflation.Reference
