/-
The pages of the manual: an overview and one page for each category.
-/

namespace Stone.Manual

/-- the pages that have a name -/
inductive Category where
  | statements
  | operators
  | functions
  | values
deriving DecidableEq

/-- the names that a category goes by, in lower case -/
def Category.names : Category → List String
  | statements => ["syntax", "grammar"]
  | operators => ["operators", "ops"]
  | functions => ["functions", "function", "closures", "fun"]
  | values => ["values", "types", "value"]

/-- the category with this name, in any case -/
def Category.ofName? (name : String) : Option Category :=
  [statements, operators, functions, values].find? fun c => c.names.contains name.toLower

/-- lines as a page -/
def page (lines : List String) : String := String.join (lines.map (· ++ "\n"))

/-- the list of categories and a quick reference -/
def overview : String := page
  ["STONE DOCUMENTATION",
   "",
   "Stone is a small dynamically typed scripting language. A program is a sequence",
   "of statements separated by newlines or semicolons; every statement has a value.",
   "",
   "DOCUMENTATION CATEGORIES",
   "",
   "  syntax            Statements, blocks, if/while and comments",
   "  operators         Binary operators, precedence and associativity",
   "  functions         def, calls, closures and scoping",
   "  values            Numbers, strings, functions and truthiness",
   "",
   "QUICK REFERENCE",
   "",
   "  x = 1 + 2 * 3             Assignment (right-associative)",
   "  if x > 5 \x7b 1 \x7d else \x7b 0 \x7d Conditional",
   "  while i < 10 \x7b i = i + 1 \x7d",
   "  def inc(n) \x7b n + 1 \x7d      Function definition",
   "  inc(41)   inc 41          Calls",
   "  fun (a) \x7b a * 2 \x7d         Closure",
   "",
   "Run 'stone docs <category>' for detailed documentation."]

/-- statements, blocks, conditionals, loops and comments -/
def statementsPage : String := page
  ["SYNTAX",
   "",
   "Statements end at a newline or a semicolon. Blank lines are empty statements.",
   "Comments start with // and run to the end of the line.",
   "",
   "BLOCKS",
   "",
   "  \x7b statement; statement \x7d",
   "  \x7b",
   "      statement",
   "      statement",
   "  \x7d",
   "",
   "A block's value is the value of its last statement, or 0 if it is empty.",
   "Blocks do not open a new scope.",
   "",
   "CONDITIONALS",
   "",
   "  if condition \x7b ... \x7d",
   "  if condition \x7b ... \x7d else \x7b ... \x7d",
   "",
   "The value is that of the branch taken, or 0 when no branch runs.",
   "",
   "LOOPS",
   "",
   "  while condition \x7b ... \x7d",
   "",
   "The value is that of the last iteration, or 0 if the body never ran."]

/-- operators, their precedence and associativity -/
def operatorsPage : String := page
  ["OPERATORS",
   "",
   "Binary operators, loosest first:",
   "",
   "  =                     1   right   assignment; the left side must be a name",
   "  == != < <= > >=       2   left    comparison, yields 1 or 0",
   "  + -                   3   left",
   "  * / %                 4   left",
   "",
   "Unary minus applies to a single primary: -x, -(a + b).",
   "",
   "  1 - 2 - 3      is  ((1 - 2) - 3)",
   "  a = b = 1      is  (a = (b = 1))",
   "  1 + 2 * 3      is  (1 + (2 * 3))",
   "",
   "+ concatenates when either side is not a number: \"n = \" + 7 is \"n = 7\".",
   "== compares any two values; a string equals a number it spells.",
   "Every other operator requires numbers."]

/-- definitions, calls, closures and scoping -/
def functionsPage : String := page
  ["FUNCTIONS",
   "",
   "  def name(a, b) \x7b body \x7d",
   "",
   "binds name in the current scope; the statement's value is the name.",
   "A call evaluates its arguments in the caller's scope and runs the body in a",
   "new scope nested inside the scope the function was defined in.",
   "",
   "  add(1, 2)",
   "  fib 10            a statement may call without parentheses",
   "",
   "CLOSURES",
   "",
   "  fun (a) \x7b a * 2 \x7d",
   "",
   "is an anonymous function value. Functions capture their defining scope, so",
   "they can read and update its variables after it has returned:",
   "",
   "  def counter() \x7b n = 0; fun () \x7b n = n + 1 \x7d \x7d",
   "  c = counter()",
   "  c()               1",
   "  c()               2",
   "",
   "SCOPING",
   "",
   "Assignment updates the innermost scope that already binds the name and",
   "otherwise creates the name in the current scope. Parameters always shadow."]

/-- numbers, texts, functions and truth -/
def valuesPage : String := page
  ["VALUES",
   "",
   "  number      decimal; integer literals such as 42, results such as 7 / 2 = 3.5",
   "  string      \"text\", with \\\" \\\\ and \\n escapes",
   "  function    from def or fun",
   "",
   "Numbers carry up to 28 significant digits. Division is exact when the result",
   "fits and is otherwise rounded, so 1 / 3 * 3 is 0.9999999999999999999999999999",
   "rather than 1.",
   "",
   "TRUTHINESS",
   "",
   "if and while treat the number 0 as false and every other value as true.",
   "",
   "ERRORS",
   "",
   "Reading an unbound name, calling a non-function, a wrong argument count,",
   "division by zero, arithmetic on non-numbers and recursion nested too deeply",
   "stop the program with a message naming the line."]

def Category.text : Category → String
  | statements => statementsPage
  | operators => operatorsPage
  | functions => functionsPage
  | values => valuesPage

end Stone.Manual
