import Relata.Algebra.Query
import Relata.Demo.Movies
/-!
# A tour of the operators

One query for each operator, on the movie database, with the label it is announced by.
-/

namespace Relata.Movies

/-- Whether a movie has the given title; a row without the column has no answer. -/
def hasTitle (m : Movies) (title : String) (row : Tuple) : Option Bool :=
  (m.movie.schema.column? "title").bind fun c => (row[c]?).map fun v => v == Value.string title

/-- The queries of the tour, in order. -/
def tour (m : Movies) : List (String × Table.Query) :=
  [("movie.project(title year)", m.movie.project "title year"),
    ("movie.select(title == Star_Wars)", m.movie.select (m.hasTitle "Star_Wars")),
    ("movie.select_where(year < 1980)", m.movie.selectWhere "year < 1980"),
    ("movieStar.select_key(Harrison_Ford)", m.movieStar.selectKey [.string "Harrison_Ford"]),
    ("movie.union(cinema)", m.movie.union m.cinema),
    ("movie.minus(cinema)", m.movie.minus m.cinema),
    ("movie.intersect(cinema)", m.movie.intersect m.cinema),
    ("movie.join(studioName, name, studio)", m.movie.join "studioName" "name" m.studio),
    ("movie.theta_join(producerNo > presNo, studio)", m.movie.thetaJoin "producerNo > presNo" m.studio),
    ("movie.index_join(title year, movieTitle movieYear, starsIn)",
      m.movie.indexJoin "title year" "movieTitle movieYear" m.starsIn),
    ("movieExec.join(address, address, movieStar)", m.movieExec.join "address" "address" m.movieStar),
    ("movie.natural_join(cinema)", m.movie.naturalJoin m.cinema),
    ("movie.hash_join(studioName, name, studio)", m.movie.hashJoin "studioName" "name" m.studio)]

/-- The results of queries that share a session. A query without a result leaves the session as it
was. -/
def resultsOf : Session → List (String × Table.Query) → List (String × Except Rejection Table)
  | _, [] => []
  | session, (label, query) :: rest =>
    match query session with
    | .ok (table, session) => (label, .ok table) :: resultsOf session rest
    | .error rejection => (label, .error rejection) :: resultsOf session rest

/-- The results of the tour. -/
def results (m : Movies) (session : Session) : List (String × Except Rejection Table) :=
  resultsOf session m.tour

end Relata.Movies
