import RankPoly.Func.Basic

namespace RankPoly

-- A function to try out, with argument types to try it with.
structure Demo where
  name : String
  about : String
  exampleArgs : String

namespace Demo

def catalog : List Demo :=
  [{ name := "add"
     about := "elementwise addition, broadcasting scalars and lower ranks"
     exampleArgs := "array<f64, 2>, array<i32, 1>" },
    { name := "sum"
      about := "reduce with add"
      exampleArgs := "array<f64, 1>" },
    { name := "cumsum"
      about := "scan with add"
      exampleArgs := "array<i64, 1>" },
    { name := "dot"
      about := "elementwise product reduced with add"
      exampleArgs := "array<f64, 1>, array<f32, 1>" },
    { name := "pairwise_diff"
      about := "all pairs of differences between two vectors"
      exampleArgs := "array<f64, 1>, array<f64, 1>" },
    { name := "gram"
      about := "dot products of every pair of rows"
      exampleArgs := "array<f64, 2>" },
    { name := "row_sums"
      about := "sum mapped over the rows of a matrix"
      exampleArgs := "array<i64, 2>" },
    { name := "clip_below"
      about := "branch merge of an integer and a float"
      exampleArgs := "i64, f64" },
    { name := "halve"
      about := "loop whose accumulator widens from i64 to f64"
      exampleArgs := "i64" },
    { name := "apply"
      about := "invoke a closure passed as an argument"
      exampleArgs := "closure<add>(f64), array<i64, 1>" }]

def find? (name : String) : Option Demo :=
  catalog.find? fun demo => demo.name = name

def define (name : String) (params : List String) (body : List (Stmt Expr)) : Func where
  name
  params := { positional := params }
  body

def binary (name : String) (op : Prim) : Func :=
  define name ["a", "b"] [.ret (.prim op [.var "a", .var "b"])]

def named (name : String) : Expr :=
  .closure name []

def clipBelow : Func :=
  define "clip_below" ["x", "floor"]
    [.branch (.prim .lt [.var "x", .var "floor"])
        [.assign (.var "lo") (.var "floor")]
        [.assign (.var "hi") (.var "x")]
        [{ var := "out", left := .var "lo", right := .var "hi" }],
      .ret (.var "out")]

def halve : Func :=
  define "halve" ["n"]
    [.assign (.var "i0") (.const (.int 0)),
      .assign (.var "x0") (.const (.int 1)),
      .loop (.prim .lt [.var "i", .var "n"])
        [.assign (.var "x1") (.prim .div [.var "x", .const (.int 2)]),
          .assign (.var "i1") (.prim .add [.var "i", .const (.int 1)])]
        [{ var := "i", left := .var "i0", right := .var "i1" },
          { var := "x", left := .var "x0", right := .var "x1" }],
      .ret (.var "x")]

-- All functions that the catalog speaks of, those included that they call.
def funcs : List Func :=
  [binary "add" .add,
    binary "mul" .mul,
    binary "sub" .sub,
    define "sum" ["xs"] [.ret (.fold .reduce (named "add") [.var "xs"] none none none)],
    define "cumsum" ["xs"] [.ret (.fold .scan (named "add") [.var "xs"] none none none)],
    define "dot" ["xs", "ys"]
      [.assign (.var "prod") (.prim .mul [.var "xs", .var "ys"]),
        .ret (.fold .reduce (named "add") [.var "prod"] none none none)],
    define "pairwise_diff" ["xs", "ys"]
      [.ret (.allPairs (named "sub") [.var "xs", .var "ys"] none)],
    define "gram" ["m"]
      [.ret (.allPairs (named "dot") [.var "m", .var "m"] (some (.const (.int 0))))],
    define "row_sums" ["m"]
      [.ret (.map (named "sum") [.var "m"] (some (.const (.int 0))))],
    clipBelow,
    halve,
    define "apply" ["f", "xs"] [.ret (.invoke (.var "f") [.var "xs"])]]

end Demo

end RankPoly
