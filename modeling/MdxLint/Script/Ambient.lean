/-! # Ambient names

Names that a compiled document may use without declaring them.
-/

namespace MdxLint

def hostNames : List String :=
  ["Array", "ArrayBuffer", "BigInt", "Boolean", "DataView", "Date", "Error", "EvalError",
   "Function", "Infinity", "Intl", "JSON", "Map", "Math", "NaN", "Number", "Object", "Promise",
   "Proxy", "RangeError", "ReferenceError", "Reflect", "RegExp", "Set", "String", "Symbol",
   "SyntaxError", "TypeError", "URIError", "URL", "URLSearchParams", "WeakMap", "WeakSet",
   "arguments", "clearInterval", "clearTimeout", "console", "decodeURI", "decodeURIComponent",
   "document", "encodeURI", "encodeURIComponent", "eval", "fetch", "globalThis", "isFinite",
   "isNaN", "localStorage", "navigator", "parseFloat", "parseInt", "process", "require",
   "setInterval", "setTimeout", "undefined", "window"]

def documentNames : List String :=
  ["props", "frontMatter", "metadata", "contentTitle", "toc", "assets"]

def ambientNames : List String := hostNames ++ documentNames

end MdxLint
