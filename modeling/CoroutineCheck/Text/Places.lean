/-!
# Places in a text

A set of places in a text is a list of flags: one for the place before each symbol, and one for the
end. A pattern is matched by moving the set of places that its beginning can reach over the text,
one token after the other, so that the work grows with the product of the two lengths.
-/
namespace CoroutineCheck.Text

abbrev Places := List Bool

namespace Places

variable {α : Type}

def nowhere (text : List α) : Places :=
  false :: text.map fun _ => false

def start (text : List α) : Places :=
  true :: text.map fun _ => false

def step (test : α → Bool) (text : List α) (places : Places) : Places :=
  false :: List.zipWith (fun c here => here && test c) text places

def spreadFrom (test : α → Bool) : Bool → List α → Places → Places
  | reached, c :: text, here :: places =>
    let here := reached || here
    here :: spreadFrom test (here && test c) text places
  | reached, [], here :: _ => [reached || here]
  | _, _, [] => []

/-- The places behind any number of symbols that all pass a test. -/
def spread (test : α → Bool) (text : List α) (places : Places) : Places :=
  spreadFrom test false text places

def behindFrom (test : α → Bool) : Bool → List α → Places → Places
  | reached, c :: text, here :: places =>
    let reached := reached || here
    (reached && test c) :: behindFrom test reached text places
  | _, _, _ => []

/-- The places behind some symbols of which the last one passes a test. -/
def behind (test : α → Bool) (text : List α) (places : Places) : Places :=
  false :: behindFrom test false text places

def atLast (text : List α) (places : Places) : Places :=
  text.map (fun _ => false) ++ [places.any id]

def union (a b : Places) : Places :=
  List.zipWith (· || ·) a b

def hasEnd (places : Places) : Bool :=
  places.getLast? == some true

end Places
end CoroutineCheck.Text
