import Formulary.Rule.Catalog

/-!
# The standard catalogs

The rules every environment starts with, as equations with what they do.
-/

namespace Formulary.Catalog

/-- Rules that remove trivial operations, such as adding zero or negating twice. -/
def reductionRules : List (String × String) :=
  [("0+x==x", "Additive Identity"),
    ("x+0==x", "Additive Identity"),
    ("0-x==-x", "Additive Inverse"),
    ("x-0==x", "Additive Identity"),
    ("0*x==0", "Multiply by Zero"),
    ("x*0==0", "Multiply by Zero"),
    ("1*x==x", "Multiplicative Identity"),
    ("x*1==x", "Multiplicative Identity"),
    ("0/x==0", "Multiply by Zero"),
    ("x/1==x", "Divide by One"),
    ("x^1==x", "First Power"),
    ("x^0==1", "Zero Power"),
    ("x^(-a)==1/(x^a)", "Negative Power"),
    ("1^x==1", "One to a Power"),
    ("-1*x==-x", "Multiplicative Identity"),
    ("x*-1==-x", "Multiplicative Identity"),
    ("x-x==0", "Additive Inverses Cancel"),
    ("x+-x==0", "Additive Inverses Cancel"),
    ("-x+x==0", "Additive Inverses Cancel"),
    ("(-x)+y==y-x", "Swap Leading Negative"),
    ("x+(-y)==x-y", "Subtraction"),
    ("(-x)+(-y)==-(x+y)", "Factor Negation from Addition"),
    ("(-x)-y==-(x+y)", "Factor Negation from Addition"),
    ("x-(-y)==x+y", "Additive Inverse's Inverse"),
    ("(-x)*y==-(x*y)", "Factor Negation from Multiplication"),
    ("x*(-y)==-(x*y)", "Factor Negation from Multiplication"),
    ("(-x)/y==-(x/y)", "Factor Negation from Multiplication"),
    ("x/(-y)==-(x/y)", "Factor Negation from Multiplication"),
    ("-(-x)==x", "Additive Inverse's Inverse"),
    ("/(/x)==x", "Multiplicative Inverse's Inverse")]

/-- Rules that simplify or expand sums. -/
def sumRules : List (String × String) :=
  [("a+0==a", "Simplify Addition by Zero"),
    ("0+a==a", "Simplify Addition by Zero"),
    ("a-a==0", "Cancel Additive Inverses"),
    ("a+-a==0", "Cancel Additive Inverses"),
    ("-a+a==0", "Cancel Additive Inverses"),
    ("a*b+-a*b==0", "Cancel Additive Inverses"),
    ("-a*b+a*b==0", "Cancel Additive Inverses"),
    ("a*(b+c)==a*b+a*c", "Expand Products by Distributing"),
    ("(a+b)*c==a*c+b*c", "Expand Products by Distributing"),
    ("a*(b-c)==a*b-a*c", "Expand Products by Distributing"),
    ("(a-b)*c==a*c-b*c", "Expand Products by Distributing")]

/-- Rules that simplify products and powers. -/
def productRules : List (String × String) :=
  [("0*a==0", "Simplify Multiplication by Zero"),
    ("a*0==0", "Simplify Multiplication by Zero"),
    ("1*a==a", "Simplify Multiplication by One"),
    ("a*1==a", "Simplify Multiplication by One"),
    ("a/a==1", "Cancel Multiplicative Inverses"),
    ("a*/a==1", "Cancel Multiplicative Inverses"),
    ("/a*a==1", "Cancel Multiplicative Inverses"),
    ("(a*b)/(a*c)==b/c", "Cancel Common Factors"),
    ("a^m/a^n==a^(m-n)", "Cancel Common Factors"),
    ("(a^m*b)/(a^n*c)==(a^(m-n)*b)/c", "Cancel Common Factors"),
    ("a*a==a^2", "Write Products of Common Terms as Powers"),
    ("a*a^n==a^(n+1)", "Write Products of Common Terms as Powers"),
    ("a^n*a==a^(n+1)", "Write Products of Common Terms as Powers"),
    ("a^m*a^n==a^(m+n)", "Write Products of Common Terms as Powers"),
    ("(a^-m*b)/c==b/(a^m*c)", "Rewrite Using Positive Powers"),
    ("(b*a^-m)/c==b/(a^m*c)", "Rewrite Using Positive Powers"),
    ("b/(a^-m*c)==(a^m*b)/c", "Rewrite Using Positive Powers"),
    ("b/(c*a^-m)==(a^m*b)/c", "Rewrite Using Positive Powers")]

/-- Adds valid one-way rules to a catalog. A rule that cannot be read is left out. -/
def addAll (o : Options) (c : Catalog) : List (String × String) → Catalog
  | [] => c
  | (equation, description) :: rules =>
    match c.add o equation description true true with
    | .ok c => addAll o c rules
    | .error _ => addAll o c rules

/-- The rules that reductions work with. -/
def reductions (o : Options) : Catalog := addAll o {} reductionRules

/-- The rules for sums. -/
def sums (o : Options) : Catalog := addAll o {} sumRules

/-- The rules for products and powers. -/
def products (o : Options) : Catalog := addAll o {} productRules

end Formulary.Catalog
