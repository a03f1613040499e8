import BlendPlot.Table

namespace BlendPlot

abbrev Environment := Table Float

/-- The value of a parameter, zero if it was never set. -/
def Environment.get (env : Environment) (name : String) : Float :=
  (env.find? name).getD 0

theorem Environment.get_insert (env : Environment) (name other : String) (value : Float) :
    Environment.get (env.insert name value) other =
      if other = name then value else Environment.get env other := by
  unfold Environment.get
  rw [Table.find?_insert]
  split <;> rfl

end BlendPlot
