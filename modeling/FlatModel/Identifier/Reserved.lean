/-!
# Names that identifiers must not shadow

The generated module may use none of these names for a symbol of its own: they are builtins and
keywords of its language, or names its header brings in.
-/

namespace FlatModel.Identifier

/-- Builtin functions and types. -/
def builtinFunctions : List String :=
  ["abs", "aiter", "all", "anext", "any", "ascii", "bin", "bool", "breakpoint", "bytearray",
    "bytes", "callable", "chr", "classmethod", "compile", "complex", "copyright", "credits",
    "delattr", "dict", "dir", "divmod", "enumerate", "eval", "exec", "exit", "filter", "float",
    "format", "frozenset", "getattr", "globals", "hasattr", "hash", "help", "hex", "id", "input",
    "int", "isinstance", "issubclass", "iter", "len", "license", "list", "locals", "map", "max",
    "memoryview", "min", "next", "object", "oct", "open", "ord", "pow", "print", "property",
    "quit", "range", "repr", "reversed", "round", "set", "setattr", "slice", "sorted",
    "staticmethod", "str", "sum", "super", "tuple", "type", "vars", "zip"]

/-- Builtin constants and attributes of every module. -/
def builtinConstants : List String :=
  ["Ellipsis", "False", "None", "NotImplemented", "True", "__build_class__", "__debug__",
    "__doc__", "__import__", "__loader__", "__name__", "__package__", "__spec__"]

/-- Builtin exceptions. -/
def builtinExceptions : List String :=
  ["ArithmeticError", "AssertionError", "AttributeError", "BaseException", "EOFError",
    "Exception", "FloatingPointError", "ImportError", "IndexError", "KeyError", "LookupError",
    "MemoryError", "NameError", "NotImplementedError", "OSError", "OverflowError",
    "RuntimeError", "StopIteration", "SyntaxError", "SystemError", "TypeError", "ValueError",
    "ZeroDivisionError"]

/-- Keywords. -/
def keywords : List String :=
  ["and", "as", "assert", "async", "await", "break", "class", "continue", "def", "del", "elif",
    "else", "except", "finally", "for", "from", "global", "if", "import", "in", "is", "lambda",
    "nonlocal", "not", "or", "pass", "raise", "return", "try", "while", "with", "yield"]

/-- Names that the header imports or that every model class uses. -/
def headerNames : List String :=
  ["sympy", "mech", "OdeModel", "sin", "cos", "tan", "psi", "self"]

/-- All names that identifiers must not shadow. -/
def reserved : List String :=
  builtinFunctions ++ builtinConstants ++ builtinExceptions ++ keywords ++ headerNames

end FlatModel.Identifier
