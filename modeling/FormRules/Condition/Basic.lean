import FormRules.Request.Basic
import FormRules.Value.Comparison

/-!
# Conditions

A condition is a test, decided at once from what a context shows, or an inquiry, which asks a service
or an asynchronous function and is decided later. Composites are made of tests only, so no inquiry can
stand inside of one.
-/

namespace FormRules

/-- A condition that is decided at once. -/
inductive Test
  | literal (value : Bool)
  /-- Compares one field. -/
  | fieldValue (path : String) (operator : Comparison) (value : Value)
  /-- Compares the form, or the array item in its place. -/
  | formValue (operator : Comparison) (value : Value)
  | expression (code : String)
  /-- Asks a registered function. -/
  | custom (name : String)
  | all (parts : List Test)
  | any (parts : List Test)

/-- Whom an inquiry asks. -/
inductive InquirySource
  /-- A service; the response is read through an expression, if one is given. -/
  | remote (request : Request) (responseExpression : Value)
  /-- A registered asynchronous function, with parameters that are expressions if they are texts. -/
  | async (function : String) (params : Entries)

/-- A condition that is decided later. -/
structure Inquiry where
  source : InquirySource
  /-- The answer until there is one. -/
  pending : Bool
  cacheMs : Option Int
  debounceMs : Option Int

/-- A condition. -/
inductive Condition
  | test (t : Test)
  | inquiry (i : Inquiry)

def InquirySource.kind : InquirySource → String
  | .remote _ _ => "remote"
  | .async _ _ => "async"

def Test.kind : Test → String
  | .literal _ => "literal"
  | .fieldValue _ _ _ => "fieldValue"
  | .formValue _ _ => "formValue"
  | .expression _ => "expression"
  | .custom _ => "custom"
  | .all _ => "and"
  | .any _ => "or"

namespace Condition

def kind : Condition → String
  | .test t => t.kind
  | .inquiry i => i.source.kind

/-- Whether the condition is decided later. -/
def isOutOfBand : Condition → Bool
  | .test _ => false
  | .inquiry _ => true

/-- The condition as a part of a composite, which has to be a test. -/
def toTest (composite : String) : Condition → Outcome Test
  | .test t => .ok t
  | .inquiry i => .error (.shape (.outOfBandInside i.source.kind composite))

end Condition

mutual

/-- Whether two tests have the same parts. -/
def Test.same : Test → Test → Bool
  | .literal a, .literal b => a = b
  | .fieldValue p o v, .fieldValue q r w => p = q && o = r && v.sameContent w
  | .formValue o v, .formValue r w => o = r && v.sameContent w
  | .expression a, .expression b => a = b
  | .custom a, .custom b => a = b
  | .all as, .all bs => Test.sameAll as bs
  | .any as, .any bs => Test.sameAll as bs
  | _, _ => false

/-- Part by part. -/
def Test.sameAll : List Test → List Test → Bool
  | [], [] => true
  | a :: as, b :: bs => Test.same a b && Test.sameAll as bs
  | _, _ => false

end

/-- Whether two inquiries ask the same. -/
def InquirySource.same : InquirySource → InquirySource → Bool
  | .remote r e, .remote s f => r.same s && e.sameContent f
  | .async a p, .async b q => a = b && (Value.map p).sameContent (.map q)
  | _, _ => false

/-- Whether two conditions have the same parts. -/
def Condition.same : Condition → Condition → Bool
  | .test a, .test b => a.same b
  | .inquiry a, .inquiry b =>
    a.source.same b.source && a.pending = b.pending && a.cacheMs = b.cacheMs
      && a.debounceMs = b.debounceMs
  | _, _ => false

end FormRules
