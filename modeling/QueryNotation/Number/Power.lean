/-!
# Powers

Powers with natural exponents are those of the core library, also where another instance of the
notation is in scope.
-/

namespace QueryNotation.Number

@[default_instance 20000]
instance (priority := high) corePower {α : Type} [NatPow α] : Pow α Nat := instPowNat

end QueryNotation.Number
