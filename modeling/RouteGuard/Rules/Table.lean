import RouteGuard.Directory.Record
import RouteGuard.Log.Event
import RouteGuard.Pattern

/-! # Rule tables

A rule table is made from the authority records in their stored order. Records
that name the same pattern share one rule: the later record takes it over and a
collision is noted. The rules stand in the order of preference, so the first
one that covers a path is the most specific.
-/

namespace RouteGuard.Rules

open Directory (Authority)
open Glob (CaseMode)

inductive LoadError
  /-- the records could not be read -/
  | unread (detail : String)
  /-- a record holds a pattern that cannot be read -/
  | badPattern (text detail : String)
  deriving DecidableEq, Repr

namespace LoadError

def message : LoadError → String
  | unread detail => "Failed to load resource rules: " ++ detail
  | badPattern text detail => "Invalid resource pattern '" ++ text ++ "': " ++ detail

def ofPattern (e : PatternError) : LoadError := badPattern e.text e.fault.message

end LoadError

/-- A pattern and the names of which a caller needs one. -/
structure Rule where
  pattern : Pattern
  required : AuthoritySet
  deriving DecidableEq

/-- A record took over the rule of an earlier one. -/
structure Collision where
  /-- the pattern text of the later record -/
  pattern : String
  overwritten : String
  winner : String
  deriving DecidableEq, Repr

/-- What is worth telling about a record while a table is made. -/
inductive Remark
  | blankName (url : String)
  | blankUrl (authority : String)
  | collision (c : Collision)
  deriving DecidableEq, Repr

namespace Remark

def collision? : Remark → Option Collision
  | collision c => some c
  | _ => none

def event (r : Remark) : Log.Event :=
  let warn (message : String) (fields : List (String × Log.Field)) : Log.Event :=
    ⟨.warn, "pathgate::authz::registry", message, fields⟩
  match r with
  | blankName url => warn "Skipping authority with blank name" [("url", .text url)]
  | blankUrl authority =>
    warn "Skipping authority with blank url" [("authority", .text authority)]
  | collision c =>
    warn "Authority pattern collision, keeping the later definition"
      [("pattern", .text c.pattern), ("overwritten", .text c.overwritten),
        ("winner", .text c.winner)]

end Remark

/-- A pattern text and the authority that holds it. -/
structure Claim where
  key : String
  text : String
  owner : String
  deriving DecidableEq, Repr

/-- What tells patterns apart: the canonical text, lower-cased when letters of
either case match each other. -/
def patternKey (mode : CaseMode) (text : String) : String :=
  match mode with
  | .exact => text
  | .folded => Text.lowercase text

/-- The claims of the records read so far, in the order of their first records,
and the remarks on the records. -/
structure Draft where
  claims : List Claim := []
  remarks : List Remark := []
  deriving DecidableEq, Repr

/-- Replaces the first claim with the key of `c`; the claims keep their places. -/
def takeOver (c : Claim) (claims : List Claim) : List Claim :=
  match claims with
  | [] => []
  | d :: rest => if d.key = c.key then c :: rest else d :: takeOver c rest

namespace Draft

/-- Adds a claim. If its key is taken, the earlier claim gives way. -/
def add (d : Draft) (c : Claim) : Draft :=
  match d.claims.find? (·.key == c.key) with
  | none => { d with claims := d.claims ++ [c] }
  | some earlier =>
    ⟨takeOver c d.claims, d.remarks ++ [.collision ⟨c.text, earlier.owner, c.owner⟩]⟩

/-- Reads one record. Records with a blank name or a blank pattern bind
nothing. -/
def read (mode : CaseMode) (d : Draft) (a : Authority) : Draft :=
  match a.trimmedName? with
  | none => { d with remarks := d.remarks ++ [.blankName a.url] }
  | some name =>
    if Text.isBlankText a.url then { d with remarks := d.remarks ++ [.blankUrl name] }
    else
      let text := canonicalText a.url
      d.add ⟨patternKey mode text, text, name⟩

def ofRecords (mode : CaseMode) (records : List Authority) : Draft :=
  records.foldl (read mode) {}

def collisions (d : Draft) : List Collision := d.remarks.filterMap Remark.collision?

end Draft

def Claim.rule (mode : CaseMode) (c : Claim) : Except PatternError Rule :=
  (Pattern.compile mode c.text).map fun p => ⟨p, .ofList [c.owner]⟩

/-- Rules in the order of preference, and the collisions met on the way. -/
structure Table where
  rules : List Rule := []
  collisions : List Collision := []
  deriving DecidableEq

namespace Table

/-- The table of a draft. One pattern that cannot be read spoils the whole
table; the first in claim order is reported. -/
def ofDraft (mode : CaseMode) (d : Draft) : Except LoadError Table :=
  match d.claims.mapM (Claim.rule mode) with
  | .error e => .error (.ofPattern e)
  | .ok rules =>
    .ok ⟨rules.mergeSort fun r s => r.pattern.atLeastAsSpecific s.pattern, d.collisions⟩

def build (mode : CaseMode) (records : List Authority) : Except LoadError Table :=
  ofDraft mode (.ofRecords mode records)

/-- The events of a build, told whether or not it succeeds. -/
def buildEvents (mode : CaseMode) (records : List Authority) : List Log.Event :=
  (Draft.ofRecords mode records).remarks.map Remark.event

def find? (t : Table) (path : String) : Option Rule :=
  t.rules.find? fun r => r.pattern.covers path

end Table

end RouteGuard.Rules
