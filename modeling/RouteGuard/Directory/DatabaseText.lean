import RouteGuard.Directory.SeedText
import RouteGuard.Directory.Store

/-! # Databases as text

Between runs a database is kept as text: nothing while it has no tables, and
otherwise a headline with the content of its tables in the form of a seed.
-/

namespace RouteGuard.Directory

/-- A character between double quotes in a seed. Quotes, backslashes and
characters that a text may not hold are escaped. -/
def escapeSeedChar (c : Char) : String :=
  if c = '"' then "\\\""
  else if c = '\\' then "\\\\"
  else if Toml.isTextChar c then c.toString
  else
    let digits := Text.hexText c.toNat
    "\\u" ++ String.ofList (List.replicate (4 - digits.length) '0') ++ digits

def quoteSeedText (s : String) : String :=
  "\"" ++ String.join (s.toList.map escapeSeedChar) ++ "\""

def listSeedTexts (ss : List String) : String :=
  "[" ++ ", ".intercalate (ss.map quoteSeedText) ++ "]"

def Seed.render (s : Seed) : String :=
  let authorities := s.authorities.map fun a =>
    "[[authorities]]\nname = " ++ quoteSeedText a.name ++ "\nurl = " ++ quoteSeedText a.url ++ "\n"
  let roles := s.roles.map fun r =>
    "[[roles]]\nname = " ++ quoteSeedText r.name ++ "\nauthorities = " ++
      listSeedTexts r.authorities ++ "\n"
  let principals := s.principals.map fun p =>
    "[[principals]]\nusername = " ++ quoteSeedText p.username ++ "\n" ++
      (p.roles.map fun names => "roles = " ++ listSeedTexts names ++ "\n").getD ""
  String.join (authorities ++ roles ++ principals)

namespace Database

/-- The first line of the text of a database with tables. -/
def headline : String := "# tables\n"

def render (d : Database) : String :=
  match d.tables with
  | none => ""
  | some t => headline ++ t.toSeed.render

/-- The database that a text keeps. -/
def ofText? (s : String) : Option Database :=
  if s.isEmpty then some {}
  else if headline.toList.isPrefixOf s.toList then
    ((Toml.read? s).bind Seed.ofToml?).map fun seed =>
      { tables := some (Tables.empty.write seed) }
  else none

end Database

end RouteGuard.Directory
