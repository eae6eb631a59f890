import Relata.Table.Basic
/-!
# The movie database

Six small tables about movies, their stars, their makers and their studios.
-/

namespace Relata

/-- The tables of the movie database. -/
structure Movies where
  movie : Table
  cinema : Table
  movieStar : Table
  starsIn : Table
  movieExec : Table
  studio : Table

namespace Movies

/-- The values that the words of a text denote in the domains of a schema. -/
def readRow (s : Schema) (text : String) : Except Fault Tuple :=
  ((Text.words text).zip s.domains).mapM fun w => Value.parse w.2 w.1

/-- A table with the given rows, inserted one by one. -/
def fill (name : String) (s : Schema) (kind : IndexKind) (rows : List String) : Except Fault Table := do
  let rows ← rows.mapM (readRow s)
  let (table, result) := (Table.empty name s kind).insertAll rows
  result.map fun _ => table

/-- The movie database with indexes of a kind. -/
def build (kind : IndexKind) : Except Fault Movies := do
  let film ← Schema.ofWords "title year length genre studioName producerNo"
    "String Integer Integer String String Integer" "title year"
  let star ← Schema.ofWords "name address gender birthdate" "String String Character String" "name"
  let role ← Schema.ofWords "movieTitle movieYear starName" "String Integer String"
    "movieTitle movieYear starName"
  let executive ← Schema.ofWords "certNo name address fee" "Integer String String Double" "certNo"
  let company ← Schema.ofWords "name address presNo" "String String Integer" "name"
  return {
    movie := ← fill "movie" film kind
      ["Star_Wars 1977 124 sciFi Fox 12345", "Star_Wars_2 1980 124 sciFi Fox 12345",
        "Rocky 1985 200 action Universal 12125", "Rambo 1978 100 action Universal 32355"]
    cinema := ← fill "cinema" film kind
      ["Rocky 1985 200 action Universal 12125", "Galaxy_Quest 1999 104 comedy DreamWorks 67890"]
    movieStar := ← fill "movieStar" star kind
      ["Carrie_Fisher Hollywood F 9/9/99", "Mark_Hamill Brentwood M 8/8/88",
        "Harrison_Ford Beverly_Hills M 7/7/77"]
    starsIn := ← fill "starsIn" role kind
      ["Star_Wars 1977 Carrie_Fisher", "Star_Wars 1977 Mark_Hamill", "Star_Wars_2 1980 Harrison_Ford"]
    movieExec := ← fill "movieExec" executive kind
      ["9999 S_Spielberg Hollywood 10000", "8888 G_Lucas Brentwood 12000",
        "7777 J_Brand Los_Angeles 15000"]
    studio := ← fill "studio" company kind
      ["Fox Los_Angeles 7777", "Universal Universal_City 8888", "DreamWorks Universal_City 9999"] }

/-- The tables in their usual order. -/
def tables (m : Movies) : List Table :=
  [m.movie, m.cinema, m.movieStar, m.starsIn, m.movieExec, m.studio]

end Movies

end Relata
