/-!
# Decimal text

The exact decimal expansion of a floating-point value. Every finite value is an integer times a
power of two, so its expansion ends; it is written with at least one digit after the point.
-/

set_option autoImplicit false

namespace TreeDiff.Decimal

def places (digits n : Nat) : String :=
  let s := toString n
  String.ofList (List.replicate (digits - s.length) '0') ++ s

def trimmed (s : String) : String :=
  match (s.toList.reverse.dropWhile (· == '0')).reverse with
  | [] => "0"
  | cs => String.ofList cs

def quotient (m k : Nat) : String :=
  toString (m >>> k) ++ "." ++ trimmed (places k (m % (1 <<< k) * Nat.pow 5 k))

def magnitude (bits : Nat) : String :=
  let exponent := bits >>> 52
  let fraction := bits % (1 <<< 52)
  let m := if exponent = 0 then fraction else (1 <<< 52) + fraction
  let e := max exponent 1
  if 1075 ≤ e then quotient (m <<< (e - 1075)) 0 else quotient m (1075 - e)

def ofFloat (x : Float) : String :=
  if x.isNaN then "NaN"
  else
    let bits := x.toBits.toNat
    let sign := if bits < 1 <<< 63 then "" else "-"
    sign ++ if x.isInf then "inf" else magnitude (bits % (1 <<< 63))

end TreeDiff.Decimal
