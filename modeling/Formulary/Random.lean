import Formulary.Number
import Formulary.Random.Keystream

/-!
# Random numbers

A generator is a key and a position in its stream, so two generators with the same seed give the
same numbers, and what a draw uses up can be read off the position.
-/

namespace Formulary

/-- A seeded generator: its key and how many 64-bit words it has given. -/
structure Random where
  key : Keystream.Key
  position : Nat := 0
deriving DecidableEq

namespace Random

/-- The seed of a generator for which none is given. -/
def defaultSeed : UInt64 := 1234

/-- The generator at the start of the stream of a seed. -/
def ofSeed (seed : UInt64) : Random := { key := Keystream.Key.ofSeed seed }

instance : Inhabited Random := ⟨ofSeed defaultSeed⟩

/-- The next word of the stream. -/
def next (r : Random) : UInt64 × Random :=
  (Keystream.word64 r.key r.position, { r with position := r.position + 1 })

/-- How many words of the stream are looked at for one number at most. The stream repeats itself
after that many, so if all of them are thrown away, no later word is any better. -/
def attemptLimit : Nat := Keystream.period

/-- A number below `range`, the high half of its product with a word of the stream. Words whose low
half is above `zone` would favour some numbers and are thrown away. -/
def below (range zone : Nat) : (attempts : Nat) → Random → Nat × Random
  | 0, r => (0, r)
  | attempts + 1, r =>
    let (word, r) := r.next
    let product := word.toNat * range
    if product % UInt64.size ≤ zone then (product / UInt64.size, r) else below range zone attempts r

/-- The largest low half that favours no number below `range`. -/
def fairZone (range : Nat) : Nat := (range <<< (63 - range.log2)) - 1

/-- An integer from `least` to `greatest`. Nothing is drawn if there is no choice. The bounds are
64-bit words; if they leave everything open, the word of the stream is the result. -/
def between (least greatest : Int) (r : Random) : Int × Random :=
  if greatest ≤ least then (least, r)
  else
    let range := (greatest - least + 1).toNat % UInt64.size
    if range = 0 then
      let (word, r) := r.next
      (word.toInt64.toInt, r)
    else
      let (n, r) := below range (fairZone range) attemptLimit r
      (least + n, r)

/-- A fraction with a numerator and a denominator from two ranges; denominators start at one. -/
def fraction (numerator denominator : Int × Int) (r : Random) : Number × Random :=
  let (p, r) := r.between numerator.1 numerator.2
  let (q, r) := r.between (max denominator.1 1) (max denominator.2 1)
  (.ofRatio p q, r)

end Random

end Formulary
