import HclToJson.Syntax

namespace HclToJson

namespace Layout

def ending (layout : Layout) : Bytes := layout.gaps.getLastD []

/-- Whether two nodes close alike: with the same tokens, and no blanks or comments among them. -/
def closesLike (a b : Layout) : Bool :=
  a.ending = b.ending && a.ending.all fun c => !Byte.isBlank c && c ≠ Byte.hash && c ≠ Byte.slash

end Layout

namespace Expr

mutual

def same : Expr → Expr → Bool
  | null _, null _ => true
  | bool _ a, bool _ b => a = b
  | number _ a, number _ b => a.same b
  | string _ a, string _ b => a = b
  | var _ a, var _ b => a = b
  | array la as, array lb bs => la.closesLike lb && sameAll as bs
  | object la as, object lb bs => la.closesLike lb && sameItems as bs
  | template _ as, template _ bs => sameElements as bs
  | heredoc _ ia as, heredoc _ ib bs => ia = ib && sameElements as bs
  | paren _ a, paren _ b => same a b
  | conditional _ ca ya na, conditional _ cb yb nb => same ca cb && same ya yb && same na nb
  | call la na as sa, call lb nb bs sb =>
      na = nb && sa = sb && la.closesLike lb && sameAll as bs
  | traversal _ a as, traversal _ b bs => same a b && sameSteps as bs
  | unary _ oa a, unary _ ob b => oa = ob && same a b
  | binary _ oa la ra, binary _ ob lb rb => oa = ob && same la lb && same ra rb
  | comprehension _ la ca ka va ga fa, comprehension _ lb cb kb vb gb fb =>
      la = lb && ga = gb && same ca cb && sameOptional ka kb && same va vb && sameOptional fa fb
  | _, _ => false
  termination_by structural a => a

def sameAll : List Expr → List Expr → Bool
  | [], [] => true
  | a :: as, b :: bs => same a b && sameAll as bs
  | _, _ => false
  termination_by structural as => as

def sameOptional : Option Expr → Option Expr → Bool
  | none, none => true
  | some a, some b => same a b
  | _, _ => false
  termination_by structural a => a

/-- Whether two keys are the same. A name is not the same as a string of it. -/
def sameKey : Key → Key → Bool
  | .ident a, .ident b => a = b
  | .expr a, .expr b => same a b
  | _, _ => false
  termination_by structural a => a

def sameItems : List Item → List Item → Bool
  | [], [] => true
  | .mk _ ka a :: as, .mk _ kb b :: bs => sameKey ka kb && same a b && sameItems as bs
  | _, _ => false
  termination_by structural as => as

def sameSteps : List Step → List Step → Bool
  | [], [] => true
  | .attribute _ a :: as, .attribute _ b :: bs => a = b && sameSteps as bs
  | .element _ a :: as, .element _ b :: bs => a = b && sameSteps as bs
  | .index _ a :: as, .index _ b :: bs => same a b && sameSteps as bs
  | .attributeSplat _ :: as, .attributeSplat _ :: bs => sameSteps as bs
  | .fullSplat _ :: as, .fullSplat _ :: bs => sameSteps as bs
  | _, _ => false
  termination_by structural as => as

def sameElements : List Element → List Element → Bool
  | [], [] => true
  | .literal a :: as, .literal b :: bs => a = b && sameElements as bs
  | .interpolation _ ta a :: as, .interpolation _ tb b :: bs =>
      ta = tb && same a b && sameElements as bs
  | .choice _ ia ea da ca ya na :: as, .choice _ ib eb db cb yb nb :: bs =>
      ia = ib && ea = eb && da = db && same ca cb && sameElements ya yb && sameElse na nb &&
        sameElements as bs
  | .repetition _ fa da la ca ba :: as, .repetition _ fb db lb cb bb :: bs =>
      fa = fb && da = db && la = lb && same ca cb && sameElements ba bb && sameElements as bs
  | _, _ => false
  termination_by structural as => as

def sameElse : Option (List Element) → Option (List Element) → Bool
  | none, none => true
  | some as, some bs => sameElements as bs
  | _, _ => false
  termination_by structural as => as

end

end Expr

namespace Item

def key : Item → Key
  | mk _ key _ => key

/-- Adds an item to a list. It takes the place of the one with the same key, if there is one. -/
def insert : List Item → Item → List Item
  | [], item => [item]
  | first :: rest, item =>
      if Expr.sameKey first.key item.key then item :: rest else first :: insert rest item

/-- Of the items with the same key the last one, at the place of the first. -/
def lastOfEach (items : List Item) : List Item :=
  items.foldl insert []

end Item

end HclToJson
