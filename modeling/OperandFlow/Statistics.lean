/-! Means and medians of whole numbers, rounded toward zero. -/
namespace OperandFlow.Statistics

/-- The mean of at most `capacity` numbers; there is none of no numbers. -/
def mean? (capacity : Nat) (data : List Int) : Option Int :=
  if data.isEmpty || capacity < data.length then none
  else some ((data.foldl (· + ·) 0).tdiv data.length)

/-- The middle of the list, or the mean of the two in the middle. -/
def middle? (data : List Int) : Option Int :=
  let half := data.length / 2
  if data.isEmpty then none
  else if data.length % 2 = 0 then do
    return ((← data[half - 1]?) + (← data[half]?)).tdiv 2
  else data[half]?

end OperandFlow.Statistics
