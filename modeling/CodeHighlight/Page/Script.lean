/-
Module: CodeHighlight.Page.Script
Purpose: What a page does by itself: copying its code without the line labels, and changing
  the theme, which the browser remembers.
Main exports: Page.script
-/

namespace CodeHighlight.Page

/-- The lines of the script. -/
def scriptLines : List String :=
  ["function copyCode() \x7b",
    "  const code = document.getElementById('code-content');",
    "  if (!code) return;",
    "  const copy = code.cloneNode(true);",
    "  copy.querySelectorAll('.line-number').forEach(label => label.remove());",
    "  const text = copy.textContent;",
    "  if (navigator.clipboard && navigator.clipboard.writeText) \x7b",
    "    navigator.clipboard.writeText(text).catch(err => console.error('copy failed', err));",
    "  \x7d else \x7b",
    "    const area = document.createElement('textarea');",
    "    area.value = text;",
    "    document.body.appendChild(area);",
    "    area.select();",
    "    document.execCommand('copy');",
    "    document.body.removeChild(area);",
    "  \x7d",
    "\x7d",
    "",
    "function applyTheme(name) \x7b",
    "  document.body.className = 'theme-' + name;",
    "  const select = document.getElementById('theme-select');",
    "  if (select) select.value = name;",
    "  localStorage.setItem('codetint-theme', name);",
    "\x7d",
    "",
    "document.addEventListener('DOMContentLoaded', () => \x7b",
    "  const saved = localStorage.getItem('codetint-theme');",
    "  if (saved && document.querySelector('#theme-select option[value=\"' + saved + '\"]')) \x7b",
    "    applyTheme(saved);",
    "  \x7d",
    "\x7d);"]

/-- The script that every whole page carries. -/
def script : String :=
  String.join (scriptLines.map fun line => line ++ "\n")

end CodeHighlight.Page
