import Mathlib.Data.Vector.Basic

/-!
# Header digests

The items of a header's digest. The author of a block announces itself in a
pre-runtime item, and a mined seal is appended as a seal item.
-/

namespace TrexPow

/-- An item of a header's digest. -/
inductive DigestItem
  | preRuntime (engine : List.Vector UInt8 4) (data : List UInt8)
  | consensus (engine : List.Vector UInt8 4) (data : List UInt8)
  | sealItem (engine : List.Vector UInt8 4) (data : List UInt8)
  | other (data : List UInt8)
  | runtimeEnvironmentUpdated
  deriving DecidableEq

/-- The raw seal of a digest item. -/
def DigestItem.asSeal : DigestItem → Option (List UInt8)
  | .sealItem _ data => some data
  | _ => none

/-- The engine and the data of a pre-runtime digest item. -/
def DigestItem.asPreRuntime : DigestItem → Option (List.Vector UInt8 4 × List UInt8)
  | .preRuntime engine data => some (engine, data)
  | _ => none

/-- `POW_ENGINE_ID`, which spells "pow_". -/
def powEngineId : List.Vector UInt8 4 := ⟨[112, 111, 119, 95], rfl⟩

end TrexPow
