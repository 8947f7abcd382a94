import TrexPow.RewardsPallet

/-!
# Signed origins

Two pallets have calls for signed origins only. Their errors are the one of the system
pallet, for any other origin, and those of their own.
-/

namespace TrexPow

/-- The errors of a call: the one of the system pallet, and those of its own pallet. -/
inductive DispatchError (Error : Type)
  | badOrigin
  | module (error : Error)
  deriving DecidableEq

/-- `ensure_signed` for the system origin behind an origin, if there is one. -/
def ensureSigned {AccountId Error : Type} (origin : Option (RawOrigin AccountId)) :
    Except (DispatchError Error) AccountId :=
  match origin with
  | some (.signed who) => .ok who
  | _ => .error .badOrigin

/-- The account behind a signed origin. -/
def signer {AccountId : Type} (origin : Option (RawOrigin AccountId)) : Option AccountId :=
  match origin with
  | some (.signed who) => some who
  | _ => none

/-- An origin is signed or turned down. -/
theorem ensureSigned_cases {AccountId : Type} (Error : Type)
    (origin : Option (RawOrigin AccountId)) :
    (∃ who, signer origin = some who ∧
        (ensureSigned origin : Except (DispatchError Error) AccountId) = .ok who) ∨
      signer origin = none ∧
        (ensureSigned origin : Except (DispatchError Error) AccountId) = .error .badOrigin := by
  rcases origin with _ | _ | who | _
  · exact Or.inr ⟨rfl, rfl⟩
  · exact Or.inr ⟨rfl, rfl⟩
  · exact Or.inl ⟨who, rfl, rfl⟩
  · exact Or.inr ⟨rfl, rfl⟩

end TrexPow
