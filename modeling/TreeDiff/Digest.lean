/-!
# Hashers

A hasher takes words and texts and comes to a digest of 64 bits. Nothing is said of how; one of them
is given below. Its state holds three words and the number of bytes written so far, and a write
folds its bytes into the words by multiplying two words to twice their width and mixing the halves
of the product. What is written in two parts differs from the same bytes written at once.
-/

set_option autoImplicit false

namespace TreeDiff

structure Hasher (δ : Type) where
  start : δ
  writeWord : δ → UInt64 → δ
  writeText : δ → String → δ
  finish : δ → UInt64

namespace Hasher

variable {δ : Type}

def words (H : Hasher δ) (ws : List UInt64) : UInt64 := H.finish (ws.foldl H.writeWord H.start)

def text (H : Hasher δ) (s : String) : UInt64 := H.finish (H.writeText H.start s)

structure Alike {δ' : Type} (H : Hasher δ) (H' : Hasher δ') : Prop where
  words (ws : List UInt64) : H.words ws = H'.words ws
  text (s : String) : H.text s = H'.text s

end Hasher

structure Digest where
  seed : UInt64
  low : UInt64
  high : UInt64
  length : UInt64
  deriving DecidableEq, Repr

namespace Digest

def salt₀ : UInt64 := 0x2d358dccaa6c78a5

def salt₁ : UInt64 := 0x8bb84b93962eacc9

def salt₂ : UInt64 := 0x4b33a62ed433d4a3

def product (x y : UInt64) : UInt64 × UInt64 :=
  let wide := x.toNat * y.toNat
  (wide.toUInt64, (wide >>> 64).toUInt64)

def mix (x y : UInt64) : UInt64 :=
  let (low, high) := product x y
  low ^^^ high

def littleEndian : List UInt8 → UInt64
  | [] => 0
  | x :: xs => x.toUInt64 ||| (littleEndian xs <<< 8)

def word (bytes : List UInt8) (width offset : Nat) : UInt64 :=
  littleEndian ((bytes.drop offset).take width)

def lanes (seed s t : UInt64) (bytes : List UInt8) :
    (UInt64 × UInt64 × UInt64) × List UInt8 :=
  if _ : 48 ≤ bytes.length then
    lanes (mix (word bytes 8 0 ^^^ salt₀) (word bytes 8 8 ^^^ seed))
      (mix (word bytes 8 16 ^^^ salt₁) (word bytes 8 24 ^^^ s))
      (mix (word bytes 8 32 ^^^ salt₂) (word bytes 8 40 ^^^ t))
      (bytes.drop 48)
  else ((seed, s, t), bytes)
termination_by bytes.length
decreasing_by simp; omega

def absorb (seed : UInt64) (bytes : List UInt8) : UInt64 :=
  let ((x, s, t), rest) := lanes seed seed seed bytes
  let x := x ^^^ (s ^^^ t)
  if rest.length ≤ 16 then x
  else
    let x := mix (word rest 8 0 ^^^ salt₂) (word rest 8 8 ^^^ x ^^^ salt₁)
    if rest.length ≤ 32 then x else mix (word rest 8 16 ^^^ salt₂) (word rest 8 24 ^^^ x)

def short (bytes : List UInt8) : UInt64 × UInt64 :=
  let n := bytes.length
  let ends := word bytes 4 0 <<< 32 ||| word bytes 4 (n - 4)
  if 8 ≤ n then (ends, word bytes 4 4 <<< 32 ||| word bytes 4 (n - 8))
  else if 4 ≤ n then (ends, ends)
  else if 0 < n then
    (word bytes 1 0 <<< 56 ||| word bytes 1 (n / 2) <<< 32 ||| word bytes 1 (n - 1), 0)
  else (0, 0)

def empty : Digest := ⟨0xbdd89aa982704029, 0, 0, 0⟩

def write (d : Digest) (bytes : List UInt8) : Digest :=
  let n := bytes.length
  let length := d.length + n.toUInt64
  let seed := d.seed ^^^ (mix (d.seed ^^^ salt₀) salt₁ ^^^ length)
  let (x, y, seed) :=
    if n ≤ 16 then
      let (x, y) := short bytes
      (x, y, seed)
    else (word bytes 8 (n - 16), word bytes 8 (n - 8), absorb seed bytes)
  let (low, high) := product (d.low ^^^ x ^^^ salt₁) (d.high ^^^ y ^^^ seed)
  ⟨seed, low, high, length⟩

def writeWord (d : Digest) (x : UInt64) : Digest :=
  d.write ((List.range 8).map fun i => (x >>> (8 * i).toUInt64).toUInt8)

def writeText (d : Digest) (s : String) : Digest :=
  (d.write s.toUTF8.toList).write [0xff]

def value (d : Digest) : UInt64 :=
  mix (d.low ^^^ salt₀ ^^^ d.length) (d.high ^^^ salt₁)

def hasher : Hasher Digest := ⟨empty, writeWord, writeText, value⟩

end Digest

end TreeDiff
