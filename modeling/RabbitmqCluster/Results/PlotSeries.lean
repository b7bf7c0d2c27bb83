import Mathlib.Data.List.Basic

/-! @src var/rabbitmq/results/perf.js | scheme:table | family:transposition

    The chart of a benchmark with two dimensions. Its results are nested by the first dimension and
    then by the second; the page says which of them is the series and which the x axis, and
    `plotSeries` looks at the first dimension to know in which order to index. The chart has the
    recorded measurements in the order of the listed values, whichever way the table is nested
    (`plotSeries_orientation`).

        dimensions [series, x]:  data[s][x] ─┐
                                             ├─▶ { series = s : (x, measurement) … } …
        dimensions [x, series]:  data[x][s] ─┘ -/

namespace RabbitmqCluster.Results

/-- An object of the source: what is not in the list is undefined. -/
abbrev Obj (A : Type) : Type := List (String × A)

/-- `results[scenario]`, over values `V` of the dimensions and measured numbers `N`. -/
structure Scenario (V N : Type) where
  dimensions : List String
  dimensionValues : Obj (List V)
  data : Obj (Obj (Obj N))

/-- A line of the chart; a measurement that is not there is drawn as undefined. -/
structure Series (V N : Type) where
  label : String
  data : List (V × Option N)
  deriving DecidableEq

/-- `div.attr(..)` -/
abbrev Attributes : Type := Obj String

/-- The name under which a value that may be undefined is looked up, and with which it is shown. -/
def propertyName : Option String → String
  | some name => name
  | none => "undefined"

def attrOrDefault (div : Attributes) (key standard : String) : String :=
  (div.lookup ("data-" ++ key)).getD standard

/-- `$.each` with a body that pushes to an array; `none` if the body throws. -/
def pushEach {A B : Type} (xs : List A) (body : A → Option B) : Option (List B) :=
  xs.foldlM (fun out x => (body x).map fun y => out ++ [y]) []

section Plot

variable {V N : Type}

/-- `data[first][second]`; `none` if it throws, or is undefined and throws when it is read. -/
def cell (data : Obj (Obj (Obj N))) (first second : String) : Option (Obj N) :=
  (data.lookup first).bind (·.lookup second)

variable (text : V → String)

/-- The chart data that `plot_series` hands on; `none` if it throws. -/
def plotSeries (div : Attributes) (r : Scenario V N) : Option (List (Series V N)) :=
  let xKey := div.lookup "data-x-key"
  let seriesKey := div.lookup "data-series-key"
  let seriesFirst := r.dimensions.head? = seriesKey
  let seriesValues := r.dimensionValues.lookup (propertyName seriesKey)
  let xValues := r.dimensionValues.lookup (propertyName xKey)
  let plotKey := attrOrDefault div "plot-key" "send-msg-rate"
  seriesValues.bind fun sVals =>
    pushEach sVals fun sVal =>
      (xValues.bind fun xVals =>
        pushEach xVals fun xVal =>
          (if seriesFirst then cell r.data (text sVal) (text xVal)
            else cell r.data (text xVal) (text sVal)).map fun val =>
              (xVal, val.lookup plotKey)).map fun d =>
        { label := propertyName seriesKey ++ " = " ++ text sVal, data := d }

/-! ### What is recorded -/

/-- What the table records at the values that the point has in the dimensions. -/
def Scenario.recorded (r : Scenario V N) (point : String → V) : Option (Obj N) :=
  match r.dimensions with
  | [a, b] => cell r.data (text (point a)) (text (point b))
  | _ => none

/-- The point with one value in the series and another one in the other dimension. -/
def pointAt (series : String) (s x : V) : String → V := fun d => if d = series then s else x

/-- One series for each of its values, with the recorded measurements along the x axis. -/
def Scenario.chart (r : Scenario V N) (series plotKey : String) (sVals xVals : List V) :
    List (Series V N) :=
  sVals.map fun s =>
    { label := series ++ " = " ++ text s
      data := xVals.map fun x =>
        (x, (r.recorded text (pointAt series s x)).bind (·.lookup plotKey)) }

/-- There are two dimensions, the series and the x axis, each with values, and a measurement for
    each pair of them. -/
structure TwoDimensional (r : Scenario V N) (series x : String) (sVals xVals : List V) :
    Prop where
  dimensions : r.dimensions = [series, x] ∨ r.dimensions = [x, series]
  distinct : series ≠ x
  seriesValues : r.dimensionValues.lookup series = some sVals
  xValues : r.dimensionValues.lookup x = some xVals
  nonempty : sVals ≠ [] ∧ xVals ≠ []
  complete : ∀ s ∈ sVals, ∀ v ∈ xVals, (r.recorded text (pointAt series s v)).isSome = true

/-- The same results with the dimensions in the other order, and the table nested accordingly. -/
structure Transposed (r r' : Scenario V N) : Prop where
  dimensions : r'.dimensions = r.dimensions.reverse
  values : r'.dimensionValues = r.dimensionValues
  data : ∀ a b, cell r'.data b a = cell r.data a b

/-- The page shows the series against the x axis. -/
structure Shows (div : Attributes) (series x : String) : Prop where
  series : div.lookup "data-series-key" = some series
  x : div.lookup "data-x-key" = some x

variable {text}

/-! ### The loops -/

theorem pushEach_eq {A B : Type} {xs : List A} {body : A → Option B} {g : A → B}
    (h : ∀ x ∈ xs, body x = some (g x)) : pushEach xs body = some (xs.map g) := by
  have hout : ∀ (l : List A) (out : List B), (∀ x ∈ l, body x = some (g x)) →
      l.foldlM (fun out x => (body x).map fun y => out ++ [y]) out = some (out ++ l.map g) := by
    intro l
    induction l with
    | nil => exact fun out _ => congrArg some (List.append_nil out).symm
    | cons x l ih =>
      intro out hl
      obtain ⟨hx, hrest⟩ := List.forall_mem_cons.mp hl
      rw [List.foldlM_cons, hx, List.map_cons, List.append_cons]
      exact ih (out ++ [g x]) hrest
  rw [pushEach, hout xs [] h, List.nil_append]

variable {div : Attributes} {r r' : Scenario V N} {series x : String} {sVals xVals : List V}

/-- The order in which the source indexes is that of the table. -/
theorem TwoDimensional.read (h : TwoDimensional text r series x sVals xVals) (s v : V) :
    (if r.dimensions.head? = some series then cell r.data (text s) (text v)
      else cell r.data (text v) (text s)) = r.recorded text (pointAt series s v) := by
  have hs : pointAt series s v series = s := if_pos rfl
  have hx : pointAt series s v x = v := if_neg (Ne.symm h.distinct)
  rcases h.dimensions with hd | hd
  · have hfirst : [series, x].head? = some series := rfl
    rw [Scenario.recorded, hd, if_pos hfirst]
    simp only [hs, hx]
  · have hfirst : [x, series].head? ≠ some series :=
      fun heq => h.distinct (Option.some.inj heq).symm
    rw [Scenario.recorded, hd, if_neg hfirst]
    simp only [hs, hx]

theorem plotSeries_chart (h : TwoDimensional text r series x sVals xVals)
    (hdiv : Shows div series x) : plotSeries text div r =
      some (r.chart text series (attrOrDefault div "plot-key" "send-msg-rate") sVals xVals) := by
  simp only [plotSeries, hdiv.series, hdiv.x, propertyName, h.seriesValues, h.xValues,
    Option.bind_some, h.read]
  refine pushEach_eq fun s hs => ?_
  have hpoints : pushEach xVals (fun v => (r.recorded text (pointAt series s v)).map fun val =>
        (v, val.lookup (attrOrDefault div "plot-key" "send-msg-rate"))) =
      some (xVals.map fun v => (v, (r.recorded text (pointAt series s v)).bind
        (·.lookup (attrOrDefault div "plot-key" "send-msg-rate")))) := by
    refine pushEach_eq fun v hv => ?_
    obtain ⟨val, hval⟩ := Option.isSome_iff_exists.mp (h.complete s hs v hv)
    rw [hval]
    rfl
  rw [hpoints]
  rfl

/-! ### The orientation -/

theorem Transposed.recorded (ht : Transposed r r')
    (h : r.dimensions = [series, x] ∨ r.dimensions = [x, series]) (point : String → V) :
    r'.recorded text point = r.recorded text point := by
  have hd := ht.dimensions
  rcases h with h | h
  · rw [h] at hd
    rw [Scenario.recorded, Scenario.recorded, h, hd]
    exact ht.data _ _
  · rw [h] at hd
    rw [Scenario.recorded, Scenario.recorded, h, hd]
    exact ht.data _ _

theorem Transposed.twoDimensional (ht : Transposed r r')
    (h : TwoDimensional text r series x sVals xVals) :
    TwoDimensional text r' series x sVals xVals where
  dimensions := by
    rw [ht.dimensions]
    rcases h.dimensions with hd | hd
    · exact Or.inr (by rw [hd]; rfl)
    · exact Or.inl (by rw [hd]; rfl)
  distinct := h.distinct
  seriesValues := ht.values ▸ h.seriesValues
  xValues := ht.values ▸ h.xValues
  nonempty := h.nonempty
  complete s hs v hv := by
    rw [ht.recorded h.dimensions]
    exact h.complete s hs v hv

/-- CORRECT: the chart has the recorded measurements in the order of the values, and stays the same
    if the table is nested the other way. -/
theorem plotSeries_orientation (h : TwoDimensional text r series x sVals xVals)
    (hdiv : Shows div series x) (ht : Transposed r r') :
    plotSeries text div r =
        some (r.chart text series (attrOrDefault div "plot-key" "send-msg-rate") sVals xVals) ∧
      plotSeries text div r' = plotSeries text div r := by
  have hchart := plotSeries_chart h hdiv
  refine ⟨hchart, ?_⟩
  rw [hchart, plotSeries_chart (ht.twoDimensional h) hdiv]
  simp only [Scenario.chart, ht.recorded h.dimensions]

end Plot

/-! ### A benchmark with two dimensions that share their values -/

def rate (n : ℕ) : Obj ℕ := [("send-msg-rate", n)]

def perProducers : Scenario String ℕ where
  dimensions := ["producers", "consumers"]
  dimensionValues := [("producers", ["1", "2"]), ("consumers", ["2", "1"])]
  data := [("1", [("1", rate 11), ("2", rate 12)]), ("2", [("1", rate 21), ("2", rate 22)])]

def perConsumers : Scenario String ℕ where
  dimensions := ["consumers", "producers"]
  dimensionValues := [("producers", ["1", "2"]), ("consumers", ["2", "1"])]
  data := [("1", [("1", rate 11), ("2", rate 21)]), ("2", [("1", rate 12), ("2", rate 22)])]

/-- One line for each number of consumers. -/
def consumersDiv : Attributes := [("data-series-key", "consumers"), ("data-x-key", "producers")]

theorem lookup_two {A : Type} (key : String) (y z : A) : List.lookup key [("1", y), ("2", z)] =
    if key = "1" then some y else if key = "2" then some z else none := by
  by_cases h1 : key = "1"
  · rw [if_pos h1, h1]
    rfl
  · rw [if_neg h1, List.lookup_cons, beq_false_of_ne h1]
    by_cases h2 : key = "2"
    · rw [if_pos h2, h2]
      rfl
    · rw [if_neg h2]
      simp [h2]

theorem perConsumers_transposed : Transposed perProducers perConsumers where
  dimensions := rfl
  values := rfl
  data a b := by
    simp only [cell, perProducers, perConsumers, lookup_two]
    split_ifs <;> simp_all [lookup_two]

theorem plotSeries_orientation_consumers :
    plotSeries id consumersDiv perProducers =
        some (perProducers.chart id "consumers" "send-msg-rate" ["2", "1"] ["1", "2"]) ∧
      plotSeries id consumersDiv perConsumers = plotSeries id consumersDiv perProducers :=
  plotSeries_orientation
    { dimensions := Or.inr rfl
      distinct := by decide
      seriesValues := rfl
      xValues := rfl
      nonempty := by decide
      complete := by decide }
    ⟨rfl, rfl⟩ perConsumers_transposed

example : plotSeries id consumersDiv perConsumers =
    some [⟨"consumers = 2", [("1", some 12), ("2", some 22)]⟩,
      ⟨"consumers = 1", [("1", some 11), ("2", some 21)]⟩] := by
  decide

end RabbitmqCluster.Results
