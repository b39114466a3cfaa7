import Mathlib.Data.List.Basic

/-!
# Codecs: a writer and a reader that undo each other

A byte stream is written front to back and read front to back. A *codec* is a
writer for one kind of value with the reader that takes the value off the front
of a stream again; the law `read_write` says that the reader consumes exactly
what the writer produced and leaves the rest alone. Everything that is built
from codecs by writing one value after the other inherits the law.
-/

namespace StackAllocation

universe u v

/-- A codec for values of type `α` over a stream of `β`s. -/
structure Codec (β : Type u) (α : Type v) where
  /-- the code words of a value -/
  write : α → List β
  /-- take one value off the front of a stream -/
  read : List β → Option (α × List β)
  /-- the reader consumes exactly what the writer produced -/
  read_write : ∀ (a : α) (rest : List β), read (write a ++ rest) = some (a, rest)

namespace Codec

variable {β : Type u} {α : Type v}

/-- The codec that writes a value as a single code word. -/
def ofLeftInverse (enc : α → β) (dec : β → α) (h : Function.LeftInverse dec enc) : Codec β α where
  write a := [enc a]
  read
    | [] => none
    | b :: rest => some (dec b, rest)
  read_write a rest := by simp only [List.singleton_append, h a]

end Codec

end StackAllocation
