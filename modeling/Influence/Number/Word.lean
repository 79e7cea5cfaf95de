/-!
# Words

How many numbers a machine word of each width can hold.
-/

namespace Influence.Word

/-- The numbers of 32 binary digits. -/
def count32 : Nat := 4294967296

/-- The numbers of 64 binary digits. -/
def count64 : Nat := 18446744073709551616

/-- The numbers of 128 binary digits. -/
def count128 : Nat := 340282366920938463463374607431768211456

end Influence.Word
