/-! # Powers of two and ten -/

namespace Classlet.Numeral

abbrev twoTo (exponent : Nat) : Nat := Nat.pow 2 exponent

abbrev tenTo (exponent : Nat) : Nat := Nat.pow 10 exponent

end Classlet.Numeral
